import ArrayFusion.Proofs.Program.Substitution
set_option autoImplicit false

namespace ArrayFusion

def Stack.Moved (slots : List (Option Nat)) (vs ws : Stack) : Prop :=
  ∀ i j : Nat, slots[i]? = some (some j) → ws[j]? = vs[i]?

theorem getElem?_append_moved {α : Type} {ls rs : List (Option Nat)} {l l' r r' : List α}
    (hl : ∀ i j : Nat, ls[i]? = some (some j) → l'[j]? = l[i]?)
    (hr : ∀ i j : Nat, rs[i]? = some (some j) → r'[j]? = r[i]?) (hlen : rs.length = r.length)
    (i j : Nat) (h : (rs ++ ls.map (·.map (· + r'.length)))[i]? = some (some j)) :
    (r' ++ l')[j]? = (r ++ l)[i]? := by
  by_cases hlt : i < rs.length
  · rw [List.getElem?_append_left hlt] at h
    have hj := hr i j h
    have hir : i < r.length := hlen ▸ hlt
    have hjr : j < r'.length := by
      rw [List.getElem?_eq_getElem hir] at hj
      exact (List.getElem?_eq_some_iff.1 hj).1
    rw [List.getElem?_append_left hjr, List.getElem?_append_left hir, hj]
  · have hle := Nat.not_lt.1 hlt
    rw [List.getElem?_append_right hle, List.getElem?_map] at h
    obtain ⟨slot, hslot, h⟩ := Option.map_eq_some_iff.1 h
    obtain ⟨k, rfl, rfl⟩ := Option.map_eq_some_iff.1 h
    rw [List.getElem?_append_right (Nat.le_add_left ..), Nat.add_sub_cancel, hl _ k hslot, hlen,
      List.getElem?_append_right (hlen ▸ hle)]

theorem Stack.Moved.append {ls rs : List (Option Nat)} {l l' r r' : Stack}
    (hl : Moved ls l l') (hr : Moved rs r r') (hlen : rs.length = r.length) :
    Moved (rs ++ ls.map (·.map (· + r'.length))) (r ++ l) (r' ++ l') :=
  getElem?_append_moved hl hr hlen

theorem Pattern.exists_slots_slotMap {p q : Pattern} {slots : List (Option Nat)}
    (h : p.slotMap q = .ok slots) {v : Value} {vs : Stack} (hvs : p.slots v = .ok vs) :
    ∃ ws, q.slots v = .ok ws ∧ Stack.Moved slots vs ws := by
  replace h := rebuilds_of_slotMap h
  induction h generalizing v vs with
  | wild t => exact ⟨[], rfl, fun i j hij => by cases hij⟩
  | kept t =>
    cases hvs
    refine ⟨[v], rfl, fun i j hij => ?_⟩
    cases i <;> cases hij
    rfl
  | dropped t =>
    refine ⟨[], rfl, fun i j hij => ?_⟩
    cases i <;> cases hij
  | pair hls hrs hl hr =>
    cases v with
    | pair a b =>
      obtain ⟨vl, vr, hvl, hvr, rfl⟩ := slots_pair.1 hvs
      obtain ⟨wl, hwl, hl⟩ := hl hvl
      obtain ⟨wr, hwr, hr⟩ := hr hvr
      have hlen := hrs.length_eq.trans (length_slots hvr).symm
      refine ⟨wr ++ wl, slots_pair.2 ⟨wl, wr, hwl, hwr, rfl⟩, ?_⟩
      rw [← length_slots hwr]
      exact hl.append hr hlen
    | scalar _ | buffer _ | unit => cases hvs

theorem Reindexing.rebuild_fits {env vs ws : Stack} {slots : List (Option Nat)} {added : Nat}
    (hvs : vs.length = slots.length) (hws : ws.length = added) (h : Stack.Moved slots vs ws)
    (r : Ref) : (rebuild (weaken 0) slots added).Fits False (vs ++ env) (ws ++ env) r := by
  intro r' hr
  unfold rebuild at hr
  cases hs : slots[r.index]? with
  | some slot =>
    rw [hs] at hr
    obtain ⟨j, rfl, rfl⟩ := Option.map_eq_some_iff.1 hr
    refine ⟨rfl, fun v hv => ?_, False.elim⟩
    have hlt : r.index < vs.length := hvs ▸ (List.getElem?_eq_some_iff.1 hs).1
    rw [List.getElem?_append_left hlt, ← h _ _ hs] at hv
    exact (List.getElem?_append_left (List.getElem?_eq_some_iff.1 hv).1).trans hv
  | none =>
    rw [hs] at hr
    cases hr
    refine ⟨rfl, fun v hv => ?_, False.elim⟩
    have hle : vs.length ≤ r.index := hvs ▸ List.getElem?_eq_none_iff.1 hs
    rw [List.getElem?_append_right hle, hvs] at hv
    exact (List.getElem?_append_right (hws ▸ Nat.le_add_left ..)).trans
      (by rw [hws, Ref.index_shifted, Nat.add_sub_cancel] ; exact hv)

end ArrayFusion
