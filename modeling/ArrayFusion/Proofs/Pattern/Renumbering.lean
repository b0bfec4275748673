import ArrayFusion.Proofs.Pattern.Rebuilding
import ArrayFusion.Proofs.Pattern.Restricting
import Mathlib.Data.List.ReduceOption
set_option autoImplicit false

namespace ArrayFusion

theorem reduceOption_rank (u : Nat → Bool) (n : Nat) :
    ((List.range n).map fun i => if u i then some (rank u i) else none).reduceOption =
      List.range (rank u n) := by
  induction n with
  | zero => rfl
  | succ n ih =>
    rw [List.range_succ, List.map_append, List.reduceOption_append, ih, rank_succ]
    by_cases hu : u n
    · simp [hu, List.range_succ]
    · simp [hu]

namespace Pattern

/-- Whatever a pattern can be rebuilt as keeps some of its slots. -/
theorem exists_restrict_of_slotMap {p q : Pattern} {slots : List (Option Nat)} (h : p.slotMap q = .ok slots) :
    ∃ u, q = p.restrict u := by
  replace h := rebuilds_of_slotMap h
  induction h with
  | wild t | kept t => exact ⟨fun _ => true, rfl⟩
  | dropped t => exact ⟨fun _ => false, rfl⟩
  | @pair _ _ r _ _ _ _ _ hl hr =>
    obtain ⟨ul, rfl⟩ := hl
    obtain ⟨ur, rfl⟩ := hr
    -- Slots are counted from the top, so those of the right part come first.
    refine ⟨fun i => if i < r.size then ur i else ul (i - r.size), ?_⟩
    rw [restrict]
    congr 1
    · exact restrict_congr fun i _ => by simp
    · exact restrict_congr fun i hi => by simp [hi]

theorem exists_slots_restrict_iff (p : Pattern) (u : Nat → Bool) (v : Value) :
    (∃ vs, (p.restrict u).slots v = .ok vs) ↔ ∃ vs, p.slots v = .ok vs := by
  induction p generalizing u v with
  | wild t => exact Iff.rfl
  | slot t => by_cases hu : u 0 <;> simp [restrict, slots, hu]
  | pair l r hl hr =>
    cases v with
    | pair a b =>
      constructor
      · rintro ⟨_, h⟩
        obtain ⟨vl, vr, hvl, hvr, -⟩ := slots_pair.1 h
        obtain ⟨wl, hwl⟩ := (hl _ a).1 ⟨vl, hvl⟩
        obtain ⟨wr, hwr⟩ := (hr _ b).1 ⟨vr, hvr⟩
        exact ⟨_, slots_pair.2 ⟨wl, wr, hwl, hwr, rfl⟩⟩
      · rintro ⟨_, h⟩
        obtain ⟨vl, vr, hvl, hvr, -⟩ := slots_pair.1 h
        obtain ⟨wl, hwl⟩ := (hl (fun i => u (r.size + i)) a).2 ⟨vl, hvl⟩
        obtain ⟨wr, hwr⟩ := (hr u b).2 ⟨vr, hvr⟩
        exact ⟨_, slots_pair.2 ⟨wl, wr, hwl, hwr, rfl⟩⟩
    | scalar _ | buffer _ | unit => simp [restrict, slots]

theorem bind_eq_ok_iff {p : Pattern} {v : Value} {s t : Stack} :
    p.bind v s = .ok () t ↔ ∃ vs, p.slots v = .ok vs ∧ t = vs ++ s := by
  have hb := p.bind_eq v s
  cases hs : p.slots v with
  | ok vs =>
    rw [hs] at hb
    simp only at hb
    simp [hb, eq_comm]
  | error e =>
    rw [hs] at hb
    obtain ⟨s', hb⟩ := hb
    simp [hb]

/-- Where the slots of the old pattern are among those of the new one. -/
structure Renumbers (old new : Pattern) (slots : List (Option Nat)) : Prop where
  length : slots.length = old.size
  /-- From the top down, the slots that stay are the new slots 0, 1, 2 and so on. -/
  places : slots.reduceOption = List.range new.size
  binds_iff : ∀ (v : Value) (s : Stack),
    (∃ t, old.bind v s = .ok () t) ↔ ∃ t, new.bind v s = .ok () t
  /-- Both patterns push as many values as they have slots, and a slot that stays has the
  value that it had. -/
  pushes : ∀ (v : Value) (s t t' : Stack), old.bind v s = .ok () t → new.bind v s = .ok () t' →
    ∃ vs ws, t = vs ++ s ∧ vs.length = old.size ∧ t' = ws ++ s ∧ ws.length = new.size ∧
      ∀ i j : Nat, slots[i]? = some (some j) → ∃ x, vs[i]? = some x ∧ ws[j]? = some x

theorem renumbers_of_slotMap {p q : Pattern} {slots : List (Option Nat)}
    (h : p.slotMap q = .ok slots) : p.Renumbers q slots := by
  obtain ⟨u, rfl⟩ := exists_restrict_of_slotMap h
  have hlen := length_slotMap h
  refine ⟨hlen, ?_, fun v s => ?_, fun v s t t' ht ht' => ?_⟩
  · have hslots := (p.slotMap_restrict u).symm.trans h
    cases hslots
    rw [reduceOption_rank, size_restrict]
  · simp [bind_eq_ok_iff, exists_slots_restrict_iff]
  · obtain ⟨vs, hvs, rfl⟩ := bind_eq_ok_iff.1 ht
    obtain ⟨ws, hws, rfl⟩ := bind_eq_ok_iff.1 ht'
    obtain ⟨_, hws', hmoved⟩ := exists_slots_slotMap h hvs
    cases hws.symm.trans hws'
    refine ⟨vs, ws, rfl, length_slots hvs, rfl, length_slots hws, fun i j hij => ?_⟩
    have hi : i < vs.length := by
      rw [length_slots hvs, ← hlen]
      exact (List.getElem?_eq_some_iff.1 hij).1
    have hget : vs[i]? = some vs[i] := List.getElem?_eq_getElem hi
    exact ⟨vs[i], hget, (hmoved i j hij).trans hget⟩

theorem getElem?_slotMap_dropped {p : Pattern} {k : Nat} (hk : k < p.size) :
    ∃ slots, p.slotMap (p.restrict (· != k)) = .ok slots ∧
      ∀ i : Nat, slots[i]? = some none ↔ i = k := by
  refine ⟨_, p.slotMap_restrict _, fun i => ?_⟩
  by_cases hi : i < p.size
  · simp [hi]
  · have hne : i ≠ k := by omega
    simp [hi, hne]

/-- Rebuilding agrees with binding for every pattern that the old one can be rebuilt as, and
each of its slots can be discarded alone. -/
theorem slotMap_agrees_with_bind (p : Pattern) :
    (∀ (q : Pattern) (slots : List (Option Nat)), p.slotMap q = .ok slots →
      p.Renumbers q slots) ∧
    ∀ k < p.size, ∃ q slots, p.dropSlot? k = some q ∧ q.ty = p.ty ∧ q.size + 1 = p.size ∧
      p.slotMap q = .ok slots ∧ ∀ i : Nat, slots[i]? = some none ↔ i = k := by
  refine ⟨fun q slots h => renumbers_of_slotMap h, fun k hk => ?_⟩
  have hdrop := dropSlot?_eq_restrict hk
  obtain ⟨slots, hslots, hnone⟩ := getElem?_slotMap_dropped hk
  exact ⟨_, slots, hdrop, ty_dropSlot? hdrop, size_dropSlot? hdrop, hslots, hnone⟩

/-- The middle one of three slots goes, and a part that was discarded before stays so. -/
theorem slotMap_agrees_with_bind_middle :
    let i : Ty := .int 64
    let p : Pattern := .pair (.pair (.slot i) (.wild .bool)) (.pair (.slot .bool) (.slot i))
    let q : Pattern := .pair (.pair (.slot i) (.wild .bool)) (.pair (.wild .bool) (.slot i))
    let v : Value :=
      .pair (.pair (.scalar (.int 1)) .unit) (.pair (.scalar (.bool true)) (.scalar (.int 2)))
    p.slotMap q = .ok [some 0, none, some 1] ∧ p.Renumbers q [some 0, none, some 1] ∧
      p.bind v [.unit] =
        .ok () [.scalar (.int 2), .scalar (.bool true), .scalar (.int 1), .unit] ∧
      q.bind v [.unit] = .ok () [.scalar (.int 2), .scalar (.int 1), .unit] ∧
      ∃ q' slots, p.dropSlot? 1 = some q' ∧ q'.ty = p.ty ∧ q'.size + 1 = p.size ∧
        p.slotMap q' = .ok slots ∧ ∀ k : Nat, slots[k]? = some none ↔ k = 1 := by
  intro i p q v
  obtain ⟨hrebuilt, hdropped⟩ := slotMap_agrees_with_bind p
  exact ⟨rfl, hrebuilt q _ rfl, rfl, rfl, hdropped 1 (by decide)⟩

end Pattern

end ArrayFusion
