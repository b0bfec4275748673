import ArrayFusion.Pattern.Rebuild
import ArrayFusion.Reindexing
import Mathlib.Data.Nat.Count
set_option autoImplicit false

/-!
Patterns that keep some of their slots, all at once. A slot that is kept moves up by as many
places as slots above it are discarded, and so does whatever lies below the pattern. Keeping
some slots and then some of those is keeping the ones that stay both times.
-/

namespace ArrayFusion

/-- How many of the slots above slot `i` are kept. -/
def rank (kept : Nat → Bool) (i : Nat) : Nat := Nat.count (fun j => kept j) i

section Rank

variable {u v : Nat → Bool} {i j n : Nat}

@[simp] theorem rank_zero (u : Nat → Bool) : rank u 0 = 0 := rfl

theorem rank_succ (u : Nat → Bool) (i : Nat) :
    rank u (i + 1) = rank u i + if u i then 1 else 0 := Nat.count_succ ..

theorem rank_add (u : Nat → Bool) (i j : Nat) :
    rank u (i + j) = rank u i + rank (fun k => u (i + k)) j := Nat.count_add ..

theorem rank_lt (hi : u i) (h : i < j) : rank u i < rank u j := Nat.count_strict_mono hi h

theorem rank_le (u : Nat → Bool) (h : i ≤ j) : rank u i ≤ rank u j := Nat.count_monotone _ h

theorem eq_of_rank_eq (hi : u i) (hj : u j) (h : rank u i = rank u j) : i = j :=
  Nat.count_injective hi hj h

theorem rank_eq_self_iff : rank u n = n ↔ ∀ i < n, u i := Nat.count_iff_forall

theorem rank_eq_zero_iff : rank u n = 0 ↔ ∀ i < n, u i = false := by
  simp [rank, Nat.count_iff_forall_not]

theorem rank_of_le (h : ∀ i, n ≤ i → u i) (hi : n ≤ i) : rank u i = rank u n + (i - n) := by
  obtain ⟨k, rfl⟩ := Nat.exists_eq_add_of_le hi
  have hk : rank (fun j => u (n + j)) k = k :=
    rank_eq_self_iff.2 fun j _ => h _ (Nat.le_add_right ..)
  rw [rank_add, hk, Nat.add_sub_cancel_left]

theorem exists_rank_eq (h : i < rank u n) : ∃ j < n, u j ∧ rank u j = i := by
  induction n with
  | zero => simp at h
  | succ n ih =>
    by_cases hi : i < rank u n
    · obtain ⟨j, hj, hu⟩ := ih hi
      exact ⟨j, by omega, hu⟩
    · rw [rank_succ] at h
      split at h
      · rename_i hu
        exact ⟨n, by omega, hu, by omega⟩
      · omega

theorem rank_rank (u v : Nat → Bool) (i : Nat) :
    rank v (rank u i) = rank (fun j => u j && v (rank u j)) i := by
  induction i with
  | zero => rfl
  | succ i ih => by_cases hu : u i <;> simp [rank_succ, hu, ih]

end Rank

namespace Pattern

/-- The pattern with the slots that are not kept turned into discarded parts. Slots are
counted from the top. -/
def restrict : Pattern → (Nat → Bool) → Pattern
  | .wild t, _ => .wild t
  | .slot t, kept => if kept 0 then .slot t else .wild t
  | .pair l r, kept => .pair (l.restrict fun i => kept (r.size + i)) (r.restrict kept)

variable {u v : Nat → Bool}

theorem restrict_congr {p : Pattern} (h : ∀ i < p.size, u i = v i) :
    p.restrict u = p.restrict v := by
  induction p generalizing u v with
  | wild t => rfl
  | slot t => rw [restrict, restrict, h 0 Nat.one_pos]
  | pair l r hl hr =>
    simp only [size] at h
    rw [restrict, restrict, hl fun i hi => h _ (by omega), hr fun i hi => h i (by omega)]

theorem restrict_of_forall {p : Pattern} (h : ∀ i < p.size, u i) : p.restrict u = p := by
  induction p generalizing u with
  | wild t => rfl
  | slot t => rw [restrict, if_pos (h 0 Nat.one_pos)]
  | pair l r hl hr =>
    simp only [size] at h
    rw [restrict, hl fun i hi => h _ (by omega), hr fun i hi => h i (by omega)]

theorem size_restrict (p : Pattern) (u : Nat → Bool) : (p.restrict u).size = rank u p.size := by
  induction p generalizing u with
  | wild t => rfl
  | slot t => by_cases hu : u 0 <;> simp [restrict, size, rank_succ, hu]
  | pair l r hl hr => rw [restrict, size, hl, hr, size, Nat.add_comm l.size, rank_add, Nat.add_comm]

theorem restrict_restrict (p : Pattern) (u v : Nat → Bool) :
    (p.restrict u).restrict v = p.restrict fun i => u i && v (rank u i) := by
  induction p generalizing u v with
  | wild t => rfl
  | slot t => by_cases hu : u 0 <;> simp [restrict, hu]
  | pair l r hl hr => simp [restrict, hl, hr, size_restrict, rank_add]

theorem dropSlot?_eq_restrict {p : Pattern} {k : Nat} (h : k < p.size) :
    p.dropSlot? k = some (p.restrict (· != k)) := by
  induction p generalizing k with
  | wild t => simp [size] at h
  | slot t =>
    obtain rfl : k = 0 := by simp [size] at h; exact h
    rfl
  | pair l r hl hr =>
    rw [size] at h
    by_cases hk : k < r.size
    · have hsame : l.restrict (fun i => r.size + i != k) = l :=
        restrict_of_forall fun i _ => by simp; omega
      simp [dropSlot?, hk, hr hk, restrict, hsame]
    · have hmoved : l.restrict (fun i => r.size + i != k) = l.restrict (· != k - r.size) :=
        restrict_congr fun i _ => by rw [Bool.eq_iff_iff]; simp; omega
      have hsame : r.restrict (· != k) = r := restrict_of_forall fun i hi => by simp; omega
      simp [dropSlot?, hk, hl (show k - r.size < l.size by omega), restrict, hmoved, hsame]

theorem slotMap_restrict (p : Pattern) (u : Nat → Bool) : p.slotMap (p.restrict u) =
    .ok ((List.range p.size).map fun i => if u i then some (rank u i) else none) := by
  induction p generalizing u with
  | wild t => simp [restrict, slotMap, size]
  | slot t => by_cases hu : u 0 <;> simp [restrict, slotMap, size, hu]
  | pair l r hl hr =>
    simp only [restrict, slotMap, hl, hr, size, bind, Except.bind, size_restrict]
    rw [Nat.add_comm l.size, List.range_add, List.map_append, List.map_map, List.map_map]
    refine congrArg (fun ls => Except.ok (_ ++ ls)) (List.map_congr_left fun i _ => ?_)
    by_cases hu : u (r.size + i)
    · simp [hu, rank_add, Nat.add_comm (rank u r.size)]
    · simp [hu]

end Pattern

namespace Reindexing

def keep (kept : Nat → Bool) : Reindexing := fun r =>
  if kept r.index then some ⟨rank kept r.index, r.ty⟩ else none

variable {u v : Nat → Bool}

theorem keep_of_forall (h : ∀ i, u i) : keep u = weaken 0 := by
  funext r
  have hrank : rank u r.index = r.index := rank_eq_self_iff.2 fun i _ => h i
  simp [keep, weaken, h, hrank]

theorem keep_andThen_keep (u v : Nat → Bool) :
    (keep u).andThen (keep v) = keep fun i => u i && v (rank u i) := by
  funext r
  by_cases hu : u r.index
  · by_cases hv : v (rank u r.index) <;> simp [andThen, keep, hu, hv, rank_rank]
  · simp [andThen, keep, hu]

theorem underRebuilt_restrict {p : Pattern} (h : ∀ i, p.size ≤ i → u i) :
    underRebuilt (weaken 0) p (p.restrict u) = .ok (keep u) := by
  simp only [underRebuilt, Pattern.slotMap_restrict, bind, Except.bind]
  refine congrArg Except.ok (funext fun r => ?_)
  by_cases hr : r.index < p.size
  · by_cases hu : u r.index <;> simp [rebuild, keep, hr, hu]
  · have hle := Nat.not_lt.1 hr
    simp [rebuild, keep, weaken, hr, h _ hle, rank_of_le h hle, Pattern.size_restrict, Ref.shifted,
      Ref.lowered, Nat.add_comm]

end Reindexing

end ArrayFusion
