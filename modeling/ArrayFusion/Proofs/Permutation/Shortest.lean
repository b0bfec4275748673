import Mathlib.Data.List.DropRight
import ArrayFusion.Proofs.Permutation.Groupoid
set_option autoImplicit false

namespace ArrayFusion

theorem dropFinalHeads_concat (ps : List Nat) (p : Nat) :
    dropFinalHeads (ps ++ [p]) = if p = 0 then dropFinalHeads ps else ps ++ [p] := by
  induction ps with
  | nil => simp [dropFinalHeads]
  | cons q ps ih =>
    rw [List.cons_append, dropFinalHeads, ih]
    by_cases hp : p = 0
    · simp [hp, dropFinalHeads]
    · cases ps <;> simp [hp]

theorem dropFinalHeads_eq_rdropWhile (ps : List Nat) :
    dropFinalHeads ps = ps.rdropWhile (· = 0) := by
  induction ps using List.reverseRecOn with
  | nil => rfl
  | append_singleton ps p ih =>
    rw [dropFinalHeads_concat, List.rdropWhile_concat, ih]
    simp

theorem dropFinalHeads_append_replicate (ps : List Nat) (n : Nat) :
    dropFinalHeads (ps ++ List.replicate n 0) = dropFinalHeads ps := by
  induction n with
  | zero => simp
  | succ n ih =>
    rw [List.replicate_succ', ← List.append_assoc, dropFinalHeads_concat, if_pos rfl, ih]

/-- Elements that come out of a list without repetitions tell where they were taken. What
is left at the end comes out from the head. -/
theorem takesOf_reorder {l : List Nat} (hl : l.Nodup) {ps : List Nat}
    (h : Takeable l.length ps) :
    takesOf l (reorder ps l) = ps ++ List.replicate (l.length - ps.length) 0 := by
  induction ps generalizing l with
  | nil => exact Permutation.takesOf_self l
  | cons p ps ih =>
    obtain ⟨hp, hps⟩ := h
    have hlen := List.length_eraseIdx_of_lt hp
    have herase : l.erase l[p] = l.eraseIdx p :=
      List.erase_eq_eraseIdx_of_idxOf (hl.idxOf_getElem p hp)
    rw [reorder_cons, List.getElem?_eq_getElem hp, Option.toList_some, List.singleton_append,
      takesOf, hl.idxOf_getElem, herase, ih (hl.eraseIdx p) (hlen ▸ hps), hlen,
      List.length_cons, List.cons_append, Nat.sub_sub, Nat.add_comm 1]

namespace Permutation

theorem ofTakes?_eq_ok_iff {s : Signature} {ps : List Nat} {p : Permutation} :
    ofTakes? s ps = .ok p ↔ p.source = s ∧ p.takes = ps := by
  constructor
  · intro h
    unfold ofTakes? at h
    split at h
    · cases h
      exact ⟨rfl, rfl⟩
    · cases h
  · rintro ⟨rfl, rfl⟩
    exact p.ofTakes?_takes

theorem takes_ofMapping_mapping (p : Permutation) :
    (ofMapping p.source p.mapping p.mapping_perm).takes = p.takes.rdropWhile (· = 0) := by
  have htakes := takesOf_reorder List.nodup_range
    (show Takeable (List.range p.source.length).length p.takes by simpa using p.takeable)
  change dropFinalHeads (takesOf _ (reorder p.takes _)) = _
  rw [htakes, dropFinalHeads_append_replicate, dropFinalHeads_eq_rdropWhile]

/-- Rebuilt from its mapping, a chain loses the takes of the head at its end and keeps the
others. So two chains with one mapping are rebuilt alike, none of them is shorter than
what they are rebuilt as, and every arrangement of the positions is the mapping of a
chain. Anything else is refused. -/
theorem ofMapping?_shortest (s : Signature) :
    (∀ ps p, ofTakes? s ps = .ok p → ∃ q, ofMapping? p.source p.mapping = .ok q ∧
      q.source = s ∧ q.mapping = p.mapping ∧ q.takes = ps.rdropWhile (· = 0)) ∧
    (∀ ps p ps' p', ofTakes? s ps = .ok p → ofTakes? s ps' = .ok p' →
      ∃ q q', ofMapping? p.source p.mapping = .ok q ∧
        ofMapping? p'.source p'.mapping = .ok q' ∧ (p.mapping = p'.mapping ↔ q = q')) ∧
    (∀ ps p q, ofTakes? s ps = .ok p → ofMapping? s p.mapping = .ok q →
      q.takes.length ≤ ps.length) ∧
    (∀ w : List Nat, w.Perm (List.range s.length) →
      ∃ q, ofMapping? s w = .ok q ∧ q.source = s ∧ q.mapping = w) ∧
    ∀ w : List Nat, ¬w.Perm (List.range s.length) →
      ofMapping? s w = .error (.shape (.notPermutation w s.length)) := by
  refine ⟨fun ps p h => ?_, fun ps p ps' p' h h' => ?_, fun ps p q h hq => ?_, fun w hw => ?_,
    fun w hw => dif_neg hw⟩
  · obtain ⟨rfl, rfl⟩ := ofTakes?_eq_ok_iff.1 h
    exact ⟨_, ofMapping?_eq_ok p.mapping_perm, rfl, mapping_ofMapping _, p.takes_ofMapping_mapping⟩
  · obtain ⟨rfl, rfl⟩ := ofTakes?_eq_ok_iff.1 h
    obtain ⟨hs, rfl⟩ := ofTakes?_eq_ok_iff.1 h'
    refine ⟨_, _, ofMapping?_eq_ok p.mapping_perm, ofMapping?_eq_ok p'.mapping_perm, ?_, ?_⟩
    · intro hm
      exact eq_of_takes hs.symm (by simp only [ofMapping, hs, hm])
    · intro hq
      rw [← mapping_ofMapping p.mapping_perm, hq, mapping_ofMapping]
  · obtain ⟨rfl, rfl⟩ := ofTakes?_eq_ok_iff.1 h
    cases (ofMapping?_eq_ok p.mapping_perm).symm.trans hq
    rw [takes_ofMapping_mapping]
    exact (List.rdropWhile_prefix _ _).length_le
  · exact ⟨_, ofMapping?_eq_ok hw, rfl, mapping_ofMapping hw⟩

/-- Two chains that bring the third of four elements to the front: one stops there, the
other one goes on with heads. A head that is taken before another element is kept. -/
theorem ofMapping?_shortest_heads :
    let v : Ty := .array 1 (.int 64)
    let s : Signature := [⟨.input, v⟩, ⟨.input, v⟩, ⟨.input, v⟩, ⟨.output, v⟩]
    ∃ p p' r q q' : Permutation, ofTakes? s [2] = .ok p ∧ ofTakes? s [2, 0, 0, 0] = .ok p' ∧
      ofTakes? s [0, 1, 0] = .ok r ∧
      (ofMapping? p.source p.mapping = .ok q ∧ ofMapping? p'.source p'.mapping = .ok q' ∧
        (p.mapping = p'.mapping ↔ q = q')) ∧
      (∃ q, ofMapping? r.source r.mapping = .ok q ∧ q.source = s ∧ q.mapping = r.mapping ∧
        q.takes = [0, 1, 0].rdropWhile (· = 0)) ∧
      (ofMapping? s [2, 0, 1, 3] = .ok p ∧ p.takes.length ≤ [2, 0, 0, 0].length) ∧
      (∃ q, ofMapping? s [3, 2, 1, 0] = .ok q ∧ q.source = s ∧ q.mapping = [3, 2, 1, 0]) ∧
      ofMapping? s [0, 0, 1, 2] = .error (.shape (.notPermutation [0, 0, 1, 2] 4)) := by
  intro v s
  obtain ⟨hrebuilt, halike, hshort, hany, hother⟩ := ofMapping?_shortest s
  obtain ⟨q, q', hboth⟩ := halike [2] _ [2, 0, 0, 0] _ rfl rfl
  exact ⟨_, _, _, q, q', rfl, rfl, rfl, hboth, hrebuilt [0, 1, 0] _ rfl,
    ⟨rfl, hshort [2, 0, 0, 0] _ _ rfl rfl⟩, hany _ (by decide), hother _ (by decide)⟩

end Permutation

end ArrayFusion
