import ArrayFusion.Proofs.Frame
import ArrayFusion.Proofs.Heap.Agreement
set_option autoImplicit false

namespace ArrayFusion

namespace Heap

def sameLive : Frame Heap where
  rel h g := ∀ b, (g.find? b).isSome = (h.find? b).isSome
  refl _ _ := rfl
  trans hst htu b := (htu b).trans (hst b)

theorem write_cases (b : BufferId) (i : Nat) (v : Literal) (h : Heap) :
    (∃ e, (write b i v).outcome h = (.error e, h)) ∨
      ∃ x, h.find? b = some x ∧ i < x.data.length ∧ (write b i v).outcome h =
        (.ok (), ⟨h.cells.set b.number (some ⟨x.shape, x.data.set i v⟩)⟩) := by
  unfold Action.outcome write
  cases hb : h.find? b with
  | none => exact .inl ⟨_, rfl⟩
  | some x =>
    by_cases hi : i < x.data.length
    · simp only [if_pos hi]
      exact .inr ⟨x, rfl, hi, rfl⟩
    · simp only [if_neg hi]
      exact .inl ⟨_, rfl⟩

theorem write_obeys_sameLive (b : BufferId) (i : Nat) (v : Literal) :
    (write b i v).Obeys sameLive := by
  intro h c
  rcases write_cases b i v h with ⟨e, hw⟩ | ⟨x, hx, _, hw⟩
  · rw [hw]
  · rw [hw]
    rw [find?_set (number_lt_next hx)]
    split
    · rw [‹c = b›, hx]
      rfl
    · rfl

/-- Every buffer stays live in its shape, and only those that may be written hold
something else. -/
def changesOnly (written : BufferId → Prop) : Frame Heap where
  rel h g := ∀ b x, h.find? b = some x → ∃ y, g.find? b = some y ∧ y.shape = x.shape ∧
    y.data.length = x.data.length ∧ (¬written b → y = x)
  refl _ _ x hx := ⟨x, hx, rfl, rfl, fun _ => rfl⟩
  trans hst htu b x hx := by
    obtain ⟨y, hy, hs, hl, he⟩ := hst b x hx
    obtain ⟨z, hz, hs', hl', he'⟩ := htu b y hy
    exact ⟨z, hz, hs'.trans hs, hl'.trans hl, fun hb => (he' hb).trans (he hb)⟩

theorem write_obeys_changesOnly {written : BufferId → Prop} {b : BufferId} (hb : written b)
    (i : Nat) (v : Literal) : (write b i v).Obeys (changesOnly written) := by
  intro h
  rcases write_cases b i v h with ⟨e, hw⟩ | ⟨x, hx, _, hw⟩
  · rw [hw]
    exact (changesOnly written).refl h
  · rw [hw]
    intro c y hy
    by_cases hc : c = b
    · subst hc
      cases hx.symm.trans hy
      refine ⟨_, find?_set_self (number_lt_next hx) _, rfl, List.length_set .., fun hn => ?_⟩
      exact (hn hb).elim
    · exact ⟨y, (find?_set_of_ne hc _).trans hy, rfl, rfl, fun _ => rfl⟩

def grow (h : Heap) (fresh : List Buffer) : Heap := ⟨h.cells ++ fresh.map some⟩

theorem grow_nil (h : Heap) : h.grow [] = h := by
  rw [grow, List.map_nil, List.append_nil]

theorem grow_cons (h : Heap) (x : Buffer) (xs : List Buffer) :
    h.grow (x :: xs) = (h.grow [x]).grow xs := by
  simp only [grow, List.map_cons, List.map_nil, List.append_assoc, List.singleton_append]

theorem next_grow (h : Heap) (fresh : List Buffer) :
    (h.grow fresh).next = h.next + fresh.length := by
  rw [next, grow, List.length_append, List.length_map, next]

theorem isSome_find?_grow {h : Heap} {fresh : List Buffer} {b : BufferId} :
    ((h.grow fresh).find? b).isSome ↔
      (h.find? b).isSome ∨ h.next ≤ b.number ∧ b.number < h.next + fresh.length := by
  unfold grow find? next
  by_cases hlt : b.number < h.cells.length
  · rw [List.getElem?_append_left hlt]
    exact (or_iff_left fun hb => Nat.not_le.2 hlt hb.1).symm
  · have hle := Nat.not_lt.1 hlt
    have hnew : b.number < h.cells.length + fresh.length ↔
        b.number - h.cells.length < fresh.length := by omega
    rw [List.getElem?_append_right hle, List.getElem?_eq_none hle, List.getElem?_map, hnew]
    cases hx : fresh[b.number - h.cells.length]? with
    | none => simp [List.getElem?_eq_none_iff.1 hx]
    | some x => simp [(List.getElem?_eq_some_iff.1 hx).1, hle]

theorem find?_grow_of_find? {h : Heap} {b : BufferId} {x : Buffer} (hb : h.find? b = some x)
    (fresh : List Buffer) : (h.grow fresh).find? b = some x := by
  unfold grow find?
  rw [List.getElem?_append_left (number_lt_next hb)]
  exact hb

theorem find?_grow_next_add (h : Heap) (fresh : List Buffer) (i : Nat) :
    (h.grow fresh).find? ⟨h.next + i⟩ = fresh[i]? := by
  unfold grow find? next
  rw [List.getElem?_append_right (Nat.le_add_right ..), Nat.add_sub_cancel_left,
    List.getElem?_map]
  cases fresh[i]? <;> rfl

theorem forall_isSome_of_grow_iff {h : Heap} {fresh : List Buffer} :
    (∀ b, ((h.grow fresh).find? b).isSome → (h.find? b).isSome) ↔ fresh = [] := by
  constructor
  · intro hlive
    refine List.length_eq_zero_iff.1 (Nat.eq_zero_of_not_pos fun hpos => ?_)
    have hnew : ((h.grow fresh).find? ⟨h.next⟩).isSome :=
      isSome_find?_grow.2 (.inr ⟨Nat.le_refl _, Nat.lt_add_of_pos_right hpos⟩)
    obtain ⟨x, hx⟩ := Option.isSome_iff_exists.1 (hlive _ hnew)
    exact Nat.lt_irrefl _ (number_lt_next hx)
  · rintro rfl b hb
    rwa [grow_nil] at hb

theorem find?_free (h : Heap) (b c : BufferId) :
    (h.free b).find? c = if c = b then none else h.find? c := by
  by_cases hc : c = b
  · subst hc
    rw [if_pos rfl]
    unfold free find?
    rw [List.getElem?_set]
    split
    · split <;> rfl
    · contradiction
  · rw [if_neg hc]
    exact find?_set_of_ne hc none

theorem find?_foldl_free (h : Heap) (bs : List BufferId) (c : BufferId) :
    (bs.foldl free h).find? c = if c ∈ bs then none else h.find? c := by
  induction bs generalizing h with
  | nil => rfl
  | cons b bs ih =>
    rw [List.foldl_cons, ih, find?_free]
    by_cases hc : c = b <;> simp [hc]

end Heap

end ArrayFusion
