import ArrayFusion.Permutation
set_option autoImplicit false

/-!
A chain of takes as a bijection on positions. Reordering a list reads it at the
positions of the mapping, whatever the elements are, so two chains whose mappings
undo each other undo each other on every list.
-/

namespace ArrayFusion

theorem reorder_cons {α : Type} (p : Nat) (ps : List Nat) (l : List α) :
    reorder (p :: ps) l = l[p]?.toList ++ reorder ps (l.eraseIdx p) := rfl

theorem getElem?_idxOf {a : Nat} {l : List Nat} (h : a ∈ l) : l[l.idxOf a]? = some a := by
  have hi := List.idxOf_lt_length_of_mem h
  rw [List.getElem?_eq_getElem hi, List.getElem_idxOf hi]

theorem reorder_takesOf {rest ws : List Nat} (h : ws.Perm rest) :
    reorder (takesOf rest ws) rest = ws := by
  induction ws generalizing rest with
  | nil => exact h.symm.eq_nil
  | cons w ws ih =>
    obtain ⟨hw, hws⟩ := List.cons_perm_iff_perm_erase.1 h
    rw [takesOf, reorder_cons, getElem?_idxOf hw, ← List.erase_eq_eraseIdx_of_idxOf rfl, ih hws]
    rfl

theorem head_append_eraseIdx {α : Type} (l : List α) : l[0]?.toList ++ l.eraseIdx 0 = l := by
  cases l <;> rfl

theorem reorder_dropFinalHeads {α : Type} (ps : List Nat) (l : List α) :
    reorder (dropFinalHeads ps) l = reorder ps l := by
  induction ps generalizing l with
  | nil => rfl
  | cons p ps ih =>
    have hps := ih (l.eraseIdx p)
    unfold dropFinalHeads
    split
    · rename_i he
      rw [he] at hps
      split
      · rename_i hp
        subst hp
        rw [reorder_cons 0 ps, ← hps]
        exact (head_append_eraseIdx l).symm
      · rw [reorder_cons p ps, ← hps]
        rfl
    · rename_i q qs he
      rw [he] at hps
      rw [reorder_cons p ps, ← hps]
      rfl

/-- The element at a position of the reordered list stands in the list where the
reordered positions say. -/
theorem getElem?_reorder {α : Type} (ps : List Nat) (l : List α) (i : Nat) :
    (reorder ps l)[i]? = (reorder ps (List.range l.length))[i]?.bind (l[·]?) := by
  have hl : l.map some = (List.range l.length).map (l[·]?) := by
    apply List.ext_getElem (by simp)
    intro j h₁ h₂
    simp at h₁
    simp [h₁]
  have hr : (reorder ps l).map some = (reorder ps (List.range l.length)).map (l[·]?) := by
    rw [map_reorder, map_reorder, hl]
  have hi := congrArg (·[i]?) hr
  simp only [List.getElem?_map] at hi
  cases h : (reorder ps l)[i]? <;> cases h' : (reorder ps (List.range l.length))[i]? <;>
    simp_all

namespace Permutation

theorem mapping_ofMapping {source : Signature} {mapping : List Nat}
    (h : mapping.Perm (List.range source.length)) :
    (ofMapping source mapping h).mapping = mapping := by
  simp only [Permutation.mapping, ofMapping]
  rw [reorder_dropFinalHeads, reorder_takesOf h]

theorem nodup_mapping (p : Permutation) : p.mapping.Nodup :=
  p.mapping_perm.nodup_iff.2 List.nodup_range

@[simp] theorem source_invert (p : Permutation) : p.invert.source = p.target := rfl

@[simp] theorem mapping_invert (p : Permutation) : p.invert.mapping = p.positions :=
  mapping_ofMapping _

theorem getElem?_positions {p : Permutation} {i : Nat} (h : i < p.source.length) :
    p.positions[i]? = some (p.mapping.idxOf i) := by
  simp [positions, h]

theorem getElem?_reorder_takes {α : Type} (p : Permutation) {l : List α}
    (h : l.length = p.source.length) (i : Nat) :
    (reorder p.takes l)[i]? = p.mapping[i]?.bind (l[·]?) := by
  rw [getElem?_reorder, h]
  rfl

theorem reorder_invert_reorder {α : Type} (p : Permutation) {l : List α}
    (h : l.length = p.source.length) :
    reorder p.invert.takes (reorder p.takes l) = l := by
  apply List.ext_getElem?
  intro i
  rw [p.invert.getElem?_reorder_takes (by simp [h]), mapping_invert]
  by_cases hi : i < p.source.length
  · have hm : i ∈ p.mapping := p.mapping_perm.mem_iff.2 (List.mem_range.2 hi)
    rw [getElem?_positions hi, Option.bind_some, p.getElem?_reorder_takes h,
      getElem?_idxOf hm, Option.bind_some]
  · have hn : p.positions.length ≤ i := by simpa [positions] using Nat.not_lt.1 hi
    rw [List.getElem?_eq_none hn, List.getElem?_eq_none (by omega)]
    rfl

theorem reorder_reorder_invert {α : Type} (p : Permutation) {k : List α}
    (h : k.length = p.source.length) :
    reorder p.takes (reorder p.invert.takes k) = k := by
  apply List.ext_getElem?
  intro i
  rw [p.getElem?_reorder_takes (by simpa using h)]
  by_cases hi : i < p.source.length
  · have hm : i < p.mapping.length := by simpa using hi
    have hj : p.mapping[i] < p.source.length :=
      List.mem_range.1 (p.mapping_perm.mem_iff.1 (List.getElem_mem hm))
    rw [List.getElem?_eq_getElem hm, Option.bind_some,
      p.invert.getElem?_reorder_takes (by simpa using h), mapping_invert,
      getElem?_positions hj, p.nodup_mapping.idxOf_getElem, Option.bind_some]
  · rw [List.getElem?_eq_none (by simpa using Nat.not_lt.1 hi), List.getElem?_eq_none (by omega)]
    rfl

theorem target_invert (p : Permutation) : p.invert.target = p.source :=
  reorder_invert_reorder p rfl

variable {α : Type} [Argument α]

theorem apply_eq_ok_iff {p : Permutation} {args out : List α} :
    p.apply args = .ok out ↔ p.source = signatureOf args ∧ out = reorder p.takes args := by
  simp only [apply, bind, Except.bind, Signature.check]
  by_cases h : p.source = signatureOf args
  · simp [h, eq_comm]
  · simp [h]

@[simp] theorem signatureOf_reorder (ps : List Nat) (args : List α) :
    signatureOf (reorder ps args) = reorder ps (signatureOf args) := map_reorder ..

theorem apply_invert_eq_ok_iff {p : Permutation} {args natural : List α} :
    p.invert.apply natural = .ok args ↔ p.apply args = .ok natural := by
  rw [apply_eq_ok_iff, apply_eq_ok_iff]
  constructor
  · rintro ⟨hs, rfl⟩
    have hn : natural.length = p.source.length := by
      simpa using (congrArg List.length hs).symm
    refine ⟨?_, (p.reorder_reorder_invert hn).symm⟩
    rw [signatureOf_reorder, ← hs]
    exact p.target_invert.symm
  · rintro ⟨hs, rfl⟩
    have hl : args.length = p.source.length := by
      simpa using (congrArg List.length hs).symm
    refine ⟨?_, (p.reorder_invert_reorder hl).symm⟩
    rw [signatureOf_reorder, ← hs]
    rfl

end Permutation

end ArrayFusion
