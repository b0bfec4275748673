import ArrayFusion.Proofs.Cluster.Schedule
set_option autoImplicit false

namespace ArrayFusion

/-- The counters with one producer less for leaf `i`. There are none if the leaf is
missing or waits for nothing. -/
def countOff (counts : List Nat) (i : Nat) : Option (List Nat) :=
  match counts[i]? with
  | some (k + 1) => some (counts.set i k)
  | _ => none

/-- Leaf `w` has run: each edge from it is counted off where it leads. -/
def release (w : Nat) : List Edge → List Nat → Option (List Nat)
  | [], counts => some counts
  | e :: edges, counts =>
    if e.1 = w then (countOff counts e.2).bind (release w edges) else release w edges counts

def countdown (edges : List Edge) (pending counts : List Nat) : Option (List Nat) :=
  match _h : pending.find? (counts[·]? = some 0) with
  | none => some []
  | some w => do
    let counts ← release w edges counts
    let rest ← countdown edges (pending.erase w) counts
    some (w :: rest)
termination_by pending.length
decreasing_by
  have hw : w ∈ pending := List.mem_of_find?_eq_some _h
  have := List.length_erase_of_mem hw
  have := List.length_pos_of_mem hw
  omega

def inDegrees (edges : List Edge) (n : Nat) : List Nat :=
  (List.range n).map fun i => edges.countP (·.2 = i)

/-- The counters when the leaves before leaf `s` have run. -/
def inDegreesFrom (edges : List Edge) (n s : Nat) : List Nat :=
  (List.range n).map fun i => edges.countP fun e => s ≤ e.1 ∧ e.2 = i

theorem inDegreesFrom_zero (edges : List Edge) (n : Nat) :
    inDegreesFrom edges n 0 = inDegrees edges n := by
  simp [inDegreesFrom, inDegrees]

theorem countOff_map_range {n i : Nat} (hi : i < n) {counts counts' : Nat → Nat}
    (h : ∀ j, counts j = counts' j + if i = j then 1 else 0) :
    countOff ((List.range n).map counts) i = some ((List.range n).map counts') := by
  have hget : ((List.range n).map counts)[i]? = some (counts' i + 1) := by
    simp [hi, h]
  simp only [countOff, hget, Option.some.injEq]
  apply List.ext_getElem (by simp)
  intro j hj hj'
  by_cases hij : i = j <;> simp [hij, h]

theorem release_map_range {n w : Nat} (edges : List Edge) (h : ∀ e ∈ edges, e.2 < n)
    (counts : Nat → Nat) :
    release w edges
        ((List.range n).map fun i => counts i + edges.countP fun e => e.1 = w ∧ e.2 = i) =
      some ((List.range n).map counts) := by
  induction edges with
  | nil => simp [release]
  | cons e edges ih =>
    obtain ⟨he, hrest⟩ := List.forall_mem_cons.1 h
    rw [release]
    split
    · rename_i hw
      let later := fun i => counts i + edges.countP fun e => e.1 = w ∧ e.2 = i
      have hoff : ∀ j, (counts j + (e :: edges).countP fun e => e.1 = w ∧ e.2 = j) =
          later j + if e.2 = j then 1 else 0 := fun j => by
        simp [later, List.countP_cons, hw, Nat.add_assoc]
      rw [countOff_map_range he hoff]
      exact ih hrest
    · rename_i hw
      simpa [List.countP_cons, hw] using ih hrest

theorem countP_from (edges : List Edge) (s i : Nat) :
    (edges.countP fun e => s ≤ e.1 ∧ e.2 = i) =
      (edges.countP fun e => s + 1 ≤ e.1 ∧ e.2 = i) + edges.countP fun e => e.1 = s ∧ e.2 = i := by
  induction edges with
  | nil => simp
  | cons e edges ih =>
    simp only [List.countP_cons, ih, decide_eq_true_eq]
    split <;> split <;> split <;> omega

theorem release_inDegreesFrom {edges : List Edge} {n : Nat} (h : ∀ e ∈ edges, e.2 < n) (s : Nat) :
    release s edges (inDegreesFrom edges n s) = some (inDegreesFrom edges n (s + 1)) := by
  simp only [inDegreesFrom, countP_from edges s]
  exact release_map_range edges h _

/-- The leftmost pending leaf waits for nothing, since its producers lie to its left. -/
theorem getElem?_inDegreesFrom_self {edges : List Edge} {n s : Nat} (h : ∀ e ∈ edges, e.1 < e.2)
    (hs : s < n) : (inDegreesFrom edges n s)[s]? = some 0 := by
  have hzero : (edges.countP fun e => s ≤ e.1 ∧ e.2 = s) = 0 := by
    rw [List.countP_eq_zero]
    intro e he hcount
    have hlt := h e he
    have hle := of_decide_eq_true hcount
    omega
  rw [inDegreesFrom, List.getElem?_map, List.getElem?_range hs, Option.map_some, hzero]

theorem countdown_range' {edges : List Edge} {n s : Nat}
    (h : ∀ e ∈ edges, e.1 < e.2 ∧ e.2 < s + n) :
    countdown edges (List.range' s n) (inDegreesFrom edges (s + n) s) =
      some (List.range' s n) := by
  induction n generalizing s with
  | zero => simp [countdown]
  | succ n ih =>
    have hnext : s + (n + 1) = s + 1 + n := by omega
    rw [hnext] at h ⊢
    have hrelease := release_inDegreesFrom (fun e he => (h e he).2) s
    have ready : (List.range' s (n + 1)).find?
        ((inDegreesFrom edges (s + 1 + n) s)[·]? = some 0) = some s := by
      rw [List.range'_succ]
      apply List.find?_cons_of_pos
      exact decide_eq_true (getElem?_inDegreesFrom_self (fun e he => (h e he).1) (by omega))
    unfold countdown
    split
    · rename_i hnone
      rw [ready] at hnone
      cases hnone
    · rename_i w hw
      rw [ready] at hw
      cases hw
      simp only [hrelease, List.range'_succ, List.erase_cons_head, Option.bind_eq_bind,
        Option.bind_some, ih h]

theorem nodup_eraseDups (edges : List Edge) : edges.eraseDups.Nodup := by
  cases edges with
  | nil => simp
  | cons e edges =>
    rw [List.eraseDups_cons, List.nodup_cons]
    exact ⟨by simp [List.mem_eraseDups], nodup_eraseDups _⟩
termination_by edges.length
decreasing_by
  have := List.length_filter_le (fun b => !b == e) edges
  simp only [List.length_cons]
  omega

namespace Cluster

variable {Op : Type}

/-- Every edge leads to the right and there is one of each, the leaves run from left to
right, and counting producers down runs them so as well. -/
theorem schedule_eq_leafOrder (c : Cluster Op) :
    (∀ e ∈ c.dependencies, e.1 < e.2 ∧ e.2 < c.leaves.length) ∧ c.dependencies.Nodup ∧
      c.schedule = List.range c.leaves.length ∧
      countdown c.dependencies (List.range c.leaves.length)
        (inDegrees c.dependencies c.leaves.length) = some c.schedule := by
  have hedges : ∀ e ∈ c.dependencies, e.1 < e.2 ∧ e.2 < c.leafCount := by
    intro e he
    have := lt_of_mem_edgesFrom (List.mem_eraseDups.1 he)
    omega
  have hcount := @countdown_range' c.dependencies c.leafCount 0 (by simpa using hedges)
  rw [Nat.zero_add, inDegreesFrom_zero, ← List.range_eq_range'] at hcount
  rw [length_leaves, schedule_eq_range]
  exact ⟨hedges, nodup_eraseDups _, rfl, hcount⟩

end Cluster

end ArrayFusion
