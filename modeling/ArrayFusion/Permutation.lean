import ArrayFusion.Signature.Argument
set_option autoImplicit false

/-!
Permutations of argument lists as chains of takes. Elements move to the front
in the order they are taken and what is left keeps its order, so that the empty
chain is the identity. A chain is a witness for the signature it was made for
and is applied to lists of that signature alone.
-/

namespace ArrayFusion

/-- Every position lies inside what the earlier takes leave of `n` elements. -/
def Takeable : Nat → List Nat → Prop
  | _, [] => True
  | n, p :: ps => p < n ∧ Takeable (n - 1) ps

/-- The taken elements in order, then the others. -/
def reorder {α : Type} : List Nat → List α → List α
  | [], l => l
  | p :: ps, l => l[p]?.toList ++ reorder ps (l.eraseIdx p)

theorem reorder_perm {α : Type} (ps : List Nat) (l : List α) : (reorder ps l).Perm l := by
  induction ps generalizing l with
  | nil => exact List.Perm.refl l
  | cons p ps ih =>
    have pick : ∀ (l : List α) (p : Nat), (l[p]?.toList ++ l.eraseIdx p).Perm l := by
      intro l
      induction l with
      | nil => simp
      | cons a l ih =>
        intro p
        cases p with
        | zero => simp
        | succ p =>
          simp only [List.getElem?_cons_succ, List.eraseIdx_cons_succ]
          exact List.perm_middle.trans ((ih p).cons a)
    exact ((ih _).append_left _).trans (pick l p)

theorem map_reorder {α β : Type} (f : α → β) (ps : List Nat) (l : List α) :
    (reorder ps l).map f = reorder ps (l.map f) := by
  induction ps generalizing l with
  | nil => rfl
  | cons p ps ih =>
    have erase : ∀ (l : List α) (p : Nat), (l.eraseIdx p).map f = (l.map f).eraseIdx p := by
      intro l
      induction l with
      | nil => simp
      | cons a l ih => intro p ; cases p <;> simp [ih]
    rw [reorder, reorder, List.map_append, ih, erase, List.getElem?_map]
    cases l[p]? <;> rfl

@[simp] theorem length_reorder {α : Type} (ps : List Nat) (l : List α) :
    (reorder ps l).length = l.length := (reorder_perm ps l).length_eq

/-- Positions, in a shrinking list, of the elements that are wanted in order. -/
def takesOf : List Nat → List Nat → List Nat
  | _, [] => []
  | rest, w :: ws => rest.idxOf w :: takesOf (rest.erase w) ws

/-- Takes of the head at the end of a chain leave everything in place. -/
def dropFinalHeads : List Nat → List Nat
  | [] => []
  | p :: ps =>
    match dropFinalHeads ps with
    | [] => if p = 0 then [] else [p]
    | q :: qs => p :: q :: qs

theorem takeable_takesOf {rest ws : List Nat} (h : ws.Perm rest) :
    Takeable rest.length (takesOf rest ws) := by
  induction ws generalizing rest with
  | nil => trivial
  | cons w ws ih =>
    have hw : w ∈ rest := h.subset (List.mem_cons_self ..)
    refine ⟨List.idxOf_lt_length_iff.2 hw, ?_⟩
    rw [← List.length_erase_of_mem hw]
    exact ih ((List.cons_perm_iff_perm_erase.1 h).2)

theorem takeable_dropFinalHeads {n : Nat} {ps : List Nat} (h : Takeable n ps) :
    Takeable n (dropFinalHeads ps) := by
  induction ps generalizing n with
  | nil => trivial
  | cons p ps ih =>
    have hps := ih h.2
    unfold dropFinalHeads
    split
    · split
      · trivial
      · exact ⟨h.1, trivial⟩
    · rename_i q qs hq
      exact ⟨h.1, hq ▸ hps⟩

structure Permutation where
  source : Signature
  takes : List Nat
  takeable : Takeable source.length takes

namespace Permutation

instance : DecidableEq Permutation := fun p q =>
  if h : p.source = q.source ∧ p.takes = q.takes then
    .isTrue (by cases p ; cases q ; simp_all)
  else .isFalse (fun he => h ⟨by rw [he], by rw [he]⟩)

def identity (source : Signature) : Permutation := ⟨source, [], trivial⟩

def checkTakes : (source : Signature) → (takes : List Nat) →
    Except Fault (PLift (Takeable source.length takes))
  | _, [] => .ok ⟨trivial⟩
  | s, p :: ps =>
    if h : p < s.length then
      match checkTakes (s.eraseIdx p) ps with
      | .ok ⟨hs⟩ => .ok ⟨h, by rwa [List.length_eraseIdx_of_lt h] at hs⟩
      | .error e => .error e
    else .error (.shape (.takeOutside p s))

def ofTakes? (source : Signature) (takes : List Nat) : Except Fault Permutation :=
  match checkTakes source takes with
  | .ok ⟨h⟩ => .ok ⟨source, takes, h⟩
  | .error e => .error e

/-- The shortest chain that brings source element `mapping[i]` to position `i`. -/
def ofMapping (source : Signature) (mapping : List Nat)
    (h : mapping.Perm (List.range source.length)) : Permutation where
  source := source
  takes := dropFinalHeads (takesOf (List.range source.length) mapping)
  takeable := takeable_dropFinalHeads (by simpa using takeable_takesOf h)

def ofMapping? (source : Signature) (mapping : List Nat) : Except Fault Permutation :=
  if h : mapping.Perm (List.range source.length) then .ok (ofMapping source mapping h)
  else .error (.shape (.notPermutation mapping source.length))

/-- Output position `i` holds source element `mapping[i]`. -/
def mapping (p : Permutation) : List Nat := reorder p.takes (List.range p.source.length)

theorem mapping_perm (p : Permutation) : p.mapping.Perm (List.range p.source.length) :=
  reorder_perm ..

@[simp] theorem length_mapping (p : Permutation) : p.mapping.length = p.source.length := by
  simp [mapping]

def isIdentity (p : Permutation) : Bool := p.mapping = List.range p.source.length

def target (p : Permutation) : Signature := reorder p.takes p.source

@[simp] theorem length_target (p : Permutation) : p.target.length = p.source.length := by
  simp [target]

def positions (p : Permutation) : List Nat :=
  (List.range p.source.length).map (p.mapping.idxOf ·)

theorem positions_perm (p : Permutation) : p.positions.Perm (List.range p.source.length) := by
  have hn : p.mapping.Nodup := p.mapping_perm.nodup_iff.2 List.nodup_range
  have hid : p.mapping.map (p.mapping.idxOf ·) = List.range p.source.length := by
    apply List.ext_getElem (by simp)
    intro i h₁ h₂
    simp [hn.idxOf_getElem]
  exact hid ▸ p.mapping_perm.symm.map (p.mapping.idxOf ·)

def invert (p : Permutation) : Permutation :=
  ofMapping p.target p.positions (by simpa using p.positions_perm)

/-- First `q`, then `p`. -/
def compose (p q : Permutation) : Except Fault Permutation :=
  if p.source = q.target then
    .ok (ofMapping q.source (reorder p.takes q.mapping)
      ((reorder_perm ..).trans q.mapping_perm))
  else .error (.shape (.notComposable p.source q.target))

def apply {α : Type} [Argument α] (p : Permutation) (args : List α) :
    Except Fault (List α) := do
  p.source.check args
  .ok (reorder p.takes args)

def text (p : Permutation) : String := "<" ++ " ".intercalate (p.takes.map toString) ++ ">"

end Permutation

end ArrayFusion
