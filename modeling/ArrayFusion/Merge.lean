import ArrayFusion.Signature.Argument
set_option autoImplicit false

/-!
Merge descriptors: how two argument lists become one. A descriptor is a list of
modes taken in lock-step with both lists; each mode takes the head of one or of
both and says what appears in the merged list.
-/

namespace ArrayFusion

/-- The table of modes: `Merges modes left right result` when the modes use up
both operands and leave the result. -/
inductive Merges : List MergeMode → Signature → Signature → Signature → Prop where
  | nil : Merges [] [] [] []
  | consumed {ms : List MergeMode} {l r o : Signature} (t : Ty) : Merges ms l r o →
      Merges (.consumed :: ms) (⟨.output, t⟩ :: l) (⟨.input, t⟩ :: r) o
  | kept {ms : List MergeMode} {l r o : Signature} (t : Ty) : Merges ms l r o →
      Merges (.kept :: ms) (⟨.output, t⟩ :: l) (⟨.input, t⟩ :: r) (⟨.output, t⟩ :: o)
  | shared {ms : List MergeMode} {l r o : Signature} (t : Ty) : Merges ms l r o →
      Merges (.shared :: ms) (⟨.input, t⟩ :: l) (⟨.input, t⟩ :: r) (⟨.input, t⟩ :: o)
  | rightOnly {ms : List MergeMode} {l r o : Signature} (p : Param) : Merges ms l r o →
      Merges (.rightOnly :: ms) l (p :: r) (p :: o)
  | leftOnly {ms : List MergeMode} {l r o : Signature} (p : Param) : Merges ms l r o →
      Merges (.leftOnly :: ms) (p :: l) r (p :: o)
  | rightOnlyOut {ms : List MergeMode} {l r o : Signature} (t : Ty) : Merges ms l r o →
      Merges (.rightOnlyOut :: ms) l (⟨.output, t⟩ :: r) (⟨.output, t⟩ :: o)
  | leftOnlyOut {ms : List MergeMode} {l r o : Signature} (t : Ty) : Merges ms l r o →
      Merges (.leftOnlyOut :: ms) (⟨.output, t⟩ :: l) r (⟨.output, t⟩ :: o)

structure MergeStep where
  result : Option Param
  left : Signature
  right : Signature

namespace MergeMode

def producesFor (a b : Param) : Bool :=
  a.role = .output && b.role = .input && a.ty = b.ty

def step (pos : Nat) : MergeMode → Signature → Signature → Except ShapeFault MergeStep
  | .consumed, a :: l, b :: r =>
    if producesFor a b then .ok ⟨none, l, r⟩
    else .error (.refused pos (.needsOutputInput .consumed a b))
  | .kept, a :: l, b :: r =>
    if producesFor a b then .ok ⟨some a, l, r⟩
    else .error (.refused pos (.needsOutputInput .kept a b))
  | .shared, a :: l, b :: r =>
    if a.role = .input ∧ b.role = .input ∧ a.ty = b.ty then .ok ⟨some a, l, r⟩
    else .error (.refused pos (.needsInputs a b))
  | .rightOnly, l, b :: r => .ok ⟨some b, l, r⟩
  | .leftOnly, a :: l, r => .ok ⟨some a, l, r⟩
  | .rightOnlyOut, l, b :: r =>
    if b.role = .output then .ok ⟨some b, l, r⟩
    else .error (.refused pos (.needsOutput .rightOnlyOut b))
  | .leftOnlyOut, a :: l, r =>
    if a.role = .output then .ok ⟨some a, l, r⟩
    else .error (.refused pos (.needsOutput .leftOnlyOut a))
  | .consumed, _ :: _, [] => .error (.rightExhausted .consumed pos)
  | .kept, _ :: _, [] => .error (.rightExhausted .kept pos)
  | .shared, _ :: _, [] => .error (.rightExhausted .shared pos)
  | .rightOnly, _, [] => .error (.rightExhausted .rightOnly pos)
  | .rightOnlyOut, _, [] => .error (.rightExhausted .rightOnlyOut pos)
  | m, [], _ => .error (.leftExhausted m pos)

theorem merges_step {pos : Nat} {m : MergeMode} {ms : List MergeMode} {l r o : Signature}
    {s : MergeStep} (h : m.step pos l r = .ok s) (hs : Merges ms s.left s.right o) :
    Merges (m :: ms) l r (s.result.toList ++ o) := by
  unfold step at h
  split at h <;> (try split at h) <;> cases h
  · rename_i a l b r hp
    obtain ⟨_, _⟩ := a ; obtain ⟨_, _⟩ := b
    simp [producesFor] at hp
    obtain ⟨⟨rfl, rfl⟩, rfl⟩ := hp
    exact .consumed _ hs
  · rename_i a l b r hp
    obtain ⟨_, _⟩ := a ; obtain ⟨_, _⟩ := b
    simp [producesFor] at hp
    obtain ⟨⟨rfl, rfl⟩, rfl⟩ := hp
    exact .kept _ hs
  · rename_i a l b r hp
    obtain ⟨_, _⟩ := a ; obtain ⟨_, _⟩ := b
    simp at hp
    obtain ⟨rfl, rfl, rfl⟩ := hp
    exact .shared _ hs
  · exact .rightOnly _ hs
  · exact .leftOnly _ hs
  · rename_i b r hp
    obtain ⟨_, _⟩ := b
    simp at hp ; subst hp
    exact .rightOnlyOut _ hs
  · rename_i a l hp
    obtain ⟨_, _⟩ := a
    simp at hp ; subst hp
    exact .leftOnlyOut _ hs

end MergeMode

/-- Takes all modes from position `pos` on; what they leave of the operands stays
in the last two fields. -/
def mergeSignatures (pos : Nat) : List MergeMode → Signature → Signature →
    Except ShapeFault (Signature × Signature × Signature)
  | [], l, r => .ok ([], l, r)
  | m :: ms, l, r =>
    match m.step pos l r with
    | .error e => .error e
    | .ok s =>
      match mergeSignatures (pos + 1) ms s.left s.right with
      | .error e => .error e
      | .ok (o, l', r') => .ok (s.result.toList ++ o, l', r')

theorem merges_of_mergeSignatures {pos : Nat} {ms : List MergeMode} {l r o : Signature}
    (h : mergeSignatures pos ms l r = .ok (o, [], [])) : Merges ms l r o := by
  induction ms generalizing pos l r o with
  | nil =>
    simp only [mergeSignatures, Except.ok.injEq, Prod.mk.injEq] at h
    obtain ⟨rfl, rfl, rfl⟩ := h
    exact .nil
  | cons m ms ih =>
    unfold mergeSignatures at h
    split at h
    · cases h
    · rename_i s hs
      split at h
      · cases h
      · rename_i o' l' r' h'
        simp only [Except.ok.injEq, Prod.mk.injEq] at h
        obtain ⟨rfl, rfl, rfl⟩ := h
        exact MergeMode.merges_step hs (ih h')

/-- Modes that merge `left` and `right` into `result`. -/
structure Merge where
  modes : List MergeMode
  left : Signature
  right : Signature
  result : Signature
  merges : Merges modes left right result

namespace Merge

def of? (modes : List MergeMode) (left right : Signature) : Except Fault Merge :=
  match h : mergeSignatures 0 modes left right with
  | .ok (result, [], []) => .ok ⟨modes, left, right, result, merges_of_mergeSignatures h⟩
  | .ok _ => .error (.shape (.notCovered modes left right))
  | .error e => .error (.shape e)

def consumedFrom : List MergeMode → Signature → Signature
  | .consumed :: ms, a :: l => a :: consumedFrom ms l
  | .kept :: ms, _ :: l | .shared :: ms, _ :: l | .leftOnly :: ms, _ :: l
  | .leftOnlyOut :: ms, _ :: l => consumedFrom ms l
  | .rightOnly :: ms, l | .rightOnlyOut :: ms, l => consumedFrom ms l
  | _, _ => []

def consumed (d : Merge) : Signature := consumedFrom d.modes d.left

def text (d : Merge) : String := MergeMode.listText d.modes

end Merge

end ArrayFusion
