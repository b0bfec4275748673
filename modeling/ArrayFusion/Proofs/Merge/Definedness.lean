import ArrayFusion.Actual
import ArrayFusion.Proofs.Merge.Joining
set_option autoImplicit false

namespace ArrayFusion

variable {α β : Type}

def ShapeFault.BlamesArguments : ShapeFault → Prop
  | .wrongArguments _ _ | .differentArrays _ => True
  | _ => False

/-- Succeeds under the condition alone; if it fails, the arguments are to blame. -/
def SucceedsWhen (c : Prop) (x : Except Fault β) : Prop :=
  (c ∧ ∃ b, x = .ok b) ∨ (¬c ∧ ∃ e : ShapeFault, e.BlamesArguments ∧ x = .error (.shape e))

namespace SucceedsWhen

variable {c p : Prop} {x : Except Fault β}

theorem of_ok (hc : c) {b : β} (h : x = .ok b) : SucceedsWhen c x := .inl ⟨hc, b, h⟩

theorem exists_ok_iff (h : SucceedsWhen c x) : (∃ b, x = .ok b) ↔ c := by
  rcases h with ⟨hc, hx⟩ | ⟨hc, e, _, rfl⟩
  · exact ⟨fun _ => hc, fun _ => hx⟩
  · exact ⟨fun ⟨_, hx⟩ => (nomatch hx), fun h => (hc h).elim⟩

theorem ne_error (h : SucceedsWhen c x) {e : ShapeFault} (he : ¬e.BlamesArguments) :
    x ≠ .error (.shape e) := by
  rintro rfl
  rcases h with ⟨_, _, hx⟩ | ⟨_, e', he', hx⟩
  · cases hx
  · cases hx
    exact he he'

theorem andThen {γ : Type} (h : SucceedsWhen c x) (f : β → γ) :
    SucceedsWhen c (x >>= fun b => .ok (f b)) := by
  rcases h with ⟨hc, b, rfl⟩ | ⟨hc, e, he, rfl⟩
  · exact .inl ⟨hc, f b, rfl⟩
  · exact .inr ⟨hc, e, he, rfl⟩

theorem ifSame [Decidable p] (h : SucceedsWhen c x) (mode : MergeMode) :
    SucceedsWhen (p ∧ c) (if p then x else .error (.shape (.differentArrays mode))) := by
  by_cases hp : p
  · rw [if_pos hp, and_iff_right hp]
    exact h
  · rw [if_neg hp]
    exact .inr ⟨fun hpc => hp hpc.1, .differentArrays mode, trivial, rfl⟩

theorem check [Argument α] {s : Signature} {args : List α} {f : Unit → Except Fault β}
    (h : signatureOf args = s → SucceedsWhen c (f ())) :
    SucceedsWhen (signatureOf args = s ∧ c) (s.check args >>= f) := by
  unfold Signature.check
  by_cases hs : signatureOf args = s
  · rw [if_pos hs.symm, and_iff_right hs]
    exact h hs
  · rw [if_neg fun he => hs he.symm]
    exact .inr ⟨fun hsc => hs hsc.1, .wrongArguments s (signatureOf args), trivial, rfl⟩

end SucceedsWhen

namespace MergeMode

def usesLeft : MergeMode → Bool
  | .rightOnly | .rightOnlyOut => false
  | _ => true

def usesRight : MergeMode → Bool
  | .leftOnly | .leftOnlyOut => false
  | _ => true

variable [Argument α]

/-- Where a mode takes an argument of either list, both denote one array. Mode number `i`
takes the arguments that stand behind those of the modes before it. -/
def SameArrays (ms : List MergeMode) (l r : List α) : Prop :=
  ∀ i a b, (∃ m, ms[i]? = some m ∧ m.usesLeft ∧ m.usesRight) →
    l[(ms.take i).countP usesLeft]? = some a → r[(ms.take i).countP usesRight]? = some b →
    Argument.sameArray a b

section Cons

variable {m : MergeMode} {ms : List MergeMode} {a b : α} {l r : List α}

theorem sameArrays_nil : SameArrays [] l r := by
  rintro i a b ⟨m, hm, _⟩
  cases hm

theorem sameArrays_cons_both (hl : m.usesLeft) (hr : m.usesRight) :
    SameArrays (m :: ms) (a :: l) (b :: r) ↔ Argument.sameArray a b ∧ SameArrays ms l r := by
  constructor
  · intro h
    refine ⟨h 0 a b ⟨m, rfl, hl, hr⟩ rfl rfl, fun i x y hm => ?_⟩
    simpa [hl, hr] using h (i + 1) x y hm
  · rintro ⟨hab, h⟩ i x y hm hx hy
    cases i with
    | zero =>
      cases hx
      cases hy
      exact hab
    | succ i => exact h i x y hm (by simpa [hl] using hx) (by simpa [hr] using hy)

theorem sameArrays_cons_left (hl : m.usesLeft) (hr : ¬m.usesRight) :
    SameArrays (m :: ms) (a :: l) r ↔ SameArrays ms l r := by
  constructor
  · exact fun h i x y hm => by simpa [hl, hr] using h (i + 1) x y hm
  · rintro h (_ | i) x y hm hx hy
    · obtain ⟨_, ⟨⟩, _, hm⟩ := hm
      exact (hr hm).elim
    · exact h i x y hm (by simpa [hl] using hx) (by simpa [hr] using hy)

theorem sameArrays_cons_right (hl : ¬m.usesLeft) (hr : m.usesRight) :
    SameArrays (m :: ms) l (b :: r) ↔ SameArrays ms l r := by
  constructor
  · exact fun h i x y hm => by simpa [hl, hr] using h (i + 1) x y hm
  · rintro h (_ | i) x y hm hx hy
    · obtain ⟨_, ⟨⟩, hm, _⟩ := hm
      exact (hl hm).elim
    · exact h i x y hm (by simpa [hl] using hx) (by simpa [hr] using hy)

end Cons

theorem combine_succeedsWhen {ms : List MergeMode} {s t o : Signature} (h : Merges ms s t o)
    {l r : List α} (hl : signatureOf l = s) (hr : signatureOf r = t) :
    SucceedsWhen (SameArrays ms l r) (combine ms l r) := by
  induction h generalizing l r with
  | nil => exact .of_ok sameArrays_nil rfl
  -- The table has a head on each side that the mode uses, and so has the list.
  | consumed t _ ih | kept t _ ih | shared t _ ih =>
    obtain ⟨a, l, rfl, _, hl⟩ := signatureOf_eq_cons hl
    obtain ⟨b, r, rfl, _, hr⟩ := signatureOf_eq_cons hr
    rw [sameArrays_cons_both rfl rfl]
    exact ((ih hl hr).andThen _).ifSame _
  | rightOnly p _ ih | rightOnlyOut p _ ih =>
    obtain ⟨b, r, rfl, _, hr⟩ := signatureOf_eq_cons hr
    rw [sameArrays_cons_right (by decide) rfl]
    exact (ih hl hr).andThen _
  | leftOnly p _ ih | leftOnlyOut p _ ih =>
    obtain ⟨a, l, rfl, _, hl⟩ := signatureOf_eq_cons hl
    rw [sameArrays_cons_left rfl (by decide)]
    exact (ih hl hr).andThen _

end MergeMode

open MergeMode

theorem mergeSignatures_of_merges {ms : List MergeMode} {l r o : Signature}
    (h : Merges ms l r o) (pos : Nat) : mergeSignatures pos ms l r = .ok (o, [], []) := by
  induction h generalizing pos with
  | nil => rfl
  | consumed t _ ih | kept t _ ih | shared t _ ih | rightOnly p _ ih | leftOnly p _ ih
  | rightOnlyOut t _ ih | leftOnlyOut t _ ih => simp [mergeSignatures, step, producesFor, ih]

theorem Merges.joined {ms : List MergeMode} {l r o : Signature} (h : Merges ms l r o) :
    Joined ms l r o (Merge.consumedFrom ms l) := by
  induction h with
  | nil => exact .nil
  | consumed t _ ih => exact .consumed rfl ih
  | kept t _ ih => exact .kept rfl ih
  | shared t _ ih => exact .shared rfl ih
  | rightOnly p _ ih => exact .rightOnly ih
  | leftOnly p _ ih => exact .leftOnly ih
  | rightOnlyOut t _ ih => exact .rightOnlyOut rfl ih
  | leftOnlyOut t _ ih => exact .leftOnlyOut rfl ih

namespace Merge

theorem of?_eq_ok_iff {ms : List MergeMode} {s t : Signature} {d : Merge} :
    of? ms s t = .ok d ↔ d.modes = ms ∧ d.left = s ∧ d.right = t := by
  unfold of?
  constructor
  · intro h
    split at h
    · cases h
      exact ⟨rfl, rfl, rfl⟩
    · cases h
    · cases h
  · rintro ⟨rfl, rfl, rfl⟩
    have hd := mergeSignatures_of_merges d.merges 0
    split
    · rename_i result h
      cases hd.symm.trans h
      rfl
    · rename_i rest hrest h
      cases hd.symm.trans h
      exact (hrest _ rfl).elim
    · rename_i e h
      cases hd.symm.trans h

variable [Argument α] (d : Merge) (l r m c : List α)

theorem combineSignatures_self : d.combineSignatures d.left d.right = .ok d.result :=
  combine_eq_ok_iff.2 ⟨_, signatureOf_params _, signatureOf_params _, d.merges.joined⟩

theorem combineBoth_succeedsWhen :
    SucceedsWhen (signatureOf l = d.left ∧ signatureOf r = d.right ∧ SameArrays d.modes l r)
      (d.combineBoth l r) :=
  .check fun hl => .check fun hr => combine_succeedsWhen d.merges hl hr

theorem split_succeedsWhen [LawfulArgument α] :
    SucceedsWhen (signatureOf m = d.result ∧ signatureOf c = d.consumed) (d.split m c) := by
  rw [← and_true (signatureOf c = d.consumed)]
  refine .check fun hm => .check fun hc => ?_
  obtain ⟨l, r, hj⟩ := exists_joins hm hc
  exact .of_ok trivial hj.2.2.split

/-- The modes are accepted exactly for the signatures that the table of modes allows, and
the lists that can then be merged are those of the two signatures that denote the same
arrays where they are fused. No fault speaks of a list that is too long or too short. -/
theorem accepts_exactly [LawfulArgument α] (modes : List MergeMode)
    (left right : Signature) :
    (∀ result, (∃ d, of? modes left right = .ok d ∧ d.result = result) ↔
      Merges modes left right result) ∧
    ∀ d, of? modes left right = .ok d →
      d.modes = modes ∧ d.left = left ∧ d.right = right ∧
      d.combineSignatures left right = .ok d.result ∧
      (∀ l r : List α,
        ((∃ m, d.combine l r = .ok m) ↔
          signatureOf l = d.left ∧ signatureOf r = d.right ∧ SameArrays modes l r) ∧
        (∀ m, d.combine l r = .ok m →
          signatureOf m = d.result ∧ ∃ c, d.inner l r = .ok c ∧ signatureOf c = d.consumed) ∧
        ∀ mode, d.combine l r ≠ .error (.shape (.listsDisagree mode)) ∧
          d.inner l r ≠ .error (.shape (.listsDisagree mode))) ∧
      ∀ m c : List α, d.split m c ≠ .error (.shape .mergedTooShort) := by
  constructor
  · intro result
    constructor
    · rintro ⟨d, hd, rfl⟩
      obtain ⟨rfl, rfl, rfl⟩ := of?_eq_ok_iff.1 hd
      exact d.merges
    · intro h
      exact ⟨⟨modes, left, right, result, h⟩, of?_eq_ok_iff.2 ⟨rfl, rfl, rfl⟩, rfl⟩
  · intro d hd
    obtain ⟨rfl, rfl, rfl⟩ := of?_eq_ok_iff.1 hd
    refine ⟨rfl, rfl, rfl, d.combineSignatures_self,
      fun l r => ⟨?_, fun m hm => ?_, fun mode => ?_⟩,
      fun m c => (d.split_succeedsWhen m c).ne_error id⟩
    · exact ((d.combineBoth_succeedsWhen l r).andThen _).exists_ok_iff
    · obtain ⟨c, hj⟩ := combine_eq_ok_iff.1 hm
      exact ⟨hj.signatureOf_merged, c, (combine_inner_eq_ok_iff.2 hj).2, hj.signatureOf_inner⟩
    · have hboth := d.combineBoth_succeedsWhen l r
      exact ⟨(hboth.andThen _).ne_error id, (hboth.andThen _).ne_error id⟩

/-- Two copies in a row. The second one has to read what the first one writes. -/
theorem accepts_exactly_copies :
    let v : Ty := .array 1 (.int 64)
    let copy : Signature := [⟨.input, v⟩, ⟨.output, v⟩]
    let modes : List MergeMode := [.leftOnly, .consumed, .rightOnlyOut]
    let l := [Actual.input ⟨0⟩ v, .output ⟨1⟩ v]
    ∃ d, of? modes copy copy = .ok d ∧ d.combineSignatures copy copy = .ok copy ∧
      SameArrays modes l [.input ⟨1⟩ v, .output ⟨2⟩ v] ∧
      (∃ m, d.combine l [.input ⟨1⟩ v, .output ⟨2⟩ v] = .ok m) ∧
      ¬SameArrays modes l [.input ⟨3⟩ v, .output ⟨2⟩ v] ∧
      ¬∃ m, d.combine l [.input ⟨3⟩ v, .output ⟨2⟩ v] = .ok m := by
  intro v copy modes l
  have hboth := (@accepts_exactly Actual _ _ modes copy copy).2 _ rfl
  obtain ⟨_, _, _, hsig, hlists, _⟩ := hboth
  have hflow := (hlists l [.input ⟨1⟩ v, .output ⟨2⟩ v]).1
  have hbreak := (hlists l [.input ⟨3⟩ v, .output ⟨2⟩ v]).1
  have hdiffer : ¬SameArrays modes l [.input ⟨3⟩ v, .output ⟨2⟩ v] := fun hs =>
    nomatch hs 1 _ _ ⟨.consumed, rfl, rfl, rfl⟩ rfl rfl
  exact ⟨_, rfl, hsig, (hflow.1 ⟨_, rfl⟩).2.2, ⟨_, rfl⟩, hdiffer,
    fun hm => hdiffer (hbreak.1 hm).2.2⟩

end Merge

end ArrayFusion
