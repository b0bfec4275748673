import ArrayFusion.Cluster.Dataflow
set_option autoImplicit false

namespace ArrayFusion

def Within (low high : Nat) (us : List (List Nat)) : Prop :=
  ∀ u ∈ us, ∀ i ∈ u, low ≤ i ∧ i < high

theorem Within.tail {low high : Nat} {us : List (List Nat)} (h : Within low high us) :
    Within low high us.tail := fun u hu => h u (List.mem_of_mem_tail hu)

theorem Within.headD {low high : Nat} {us : List (List Nat)} (h : Within low high us) {i : Nat}
    (hi : i ∈ us.headD []) : low ≤ i ∧ i < high := by
  cases us with
  | nil => cases hi
  | cons u us => exact h u (List.mem_cons_self ..) i hi

theorem Within.cons {low high : Nat} {u : List Nat} {us : List (List Nat)}
    (hu : ∀ i ∈ u, low ≤ i ∧ i < high) (h : Within low high us) : Within low high (u :: us) :=
  List.forall_mem_cons.2 ⟨hu, h⟩

theorem within_mergeUses {low middle high : Nat} (hlm : low ≤ middle) (hmh : middle ≤ high)
    {ms : List MergeMode} {l r : List (List Nat)} (hl : Within low middle l)
    (hr : Within middle high r) : Within low high (mergeUses ms l r) := by
  have left : ∀ {i l}, Within low middle l → i ∈ l.headD [] → low ≤ i ∧ i < high := by
    intro i l hl hi
    have := hl.headD hi
    omega
  have right : ∀ {i r}, Within middle high r → i ∈ r.headD [] → low ≤ i ∧ i < high := by
    intro i r hr hi
    have := hr.headD hi
    omega
  induction ms generalizing l r with
  | nil => exact fun u hu => (List.not_mem_nil hu).elim
  | cons m ms ih =>
    cases m with
    | consumed => exact ih hl.tail hr.tail
    | kept => exact (ih hl.tail hr.tail).cons fun i hi => left hl hi
    | shared =>
      refine (ih hl.tail hr.tail).cons fun i hi => ?_
      rcases List.mem_append.1 (List.mem_eraseDups.1 hi) with hi | hi
      · exact left hl hi
      · exact right hr hi
    | rightOnly | rightOnlyOut => exact (ih hl hr.tail).cons fun i hi => right hr hi
    | leftOnly | leftOnlyOut => exact (ih hl.tail hr).cons fun i hi => left hl hi

theorem mem_mergeEdges {ms : List MergeMode} {l r : List (List Nat)} {low middle high : Nat}
    (hl : Within low middle l) (hr : Within middle high r) {e : Edge}
    (he : e ∈ mergeEdges ms l r) : (low ≤ e.1 ∧ e.1 < middle) ∧ middle ≤ e.2 ∧ e.2 < high := by
  induction ms generalizing l r with
  | nil => cases he
  | cons m ms ih =>
    cases m with
    | consumed | kept =>
      rcases List.mem_append.1 he with he | he
      · obtain ⟨w, hw, he⟩ := List.mem_flatMap.1 he
        obtain ⟨k, hk, rfl⟩ := List.mem_map.1 he
        exact ⟨hl.headD hw, hr.headD hk⟩
      · exact ih hl.tail hr.tail he
    | shared => exact ih hl.tail hr.tail he
    | rightOnly | rightOnlyOut => exact ih hl hr.tail he
    | leftOnly | leftOnlyOut => exact ih hl.tail hr he

namespace Cluster

variable {Op : Type}

theorem within_users (c : Cluster Op) (first : Nat) :
    Within first (first + c.leafCount) (c.users first) := by
  induction c generalizing first with
  | leaf op perm =>
    intro u hu i hi
    obtain ⟨_, _, rfl⟩ := List.mem_map.1 hu
    obtain rfl := List.mem_singleton.1 hi
    exact ⟨Nat.le_refl _, Nat.lt_succ_self _⟩
  | branch l r d hl hr =>
    have hr := hr (first + l.leafCount)
    rw [Nat.add_assoc] at hr
    exact within_mergeUses (Nat.le_add_right ..) (by rw [leafCount] ; omega) (hl first) hr

theorem lt_of_mem_edgesFrom {c : Cluster Op} {first : Nat} {e : Edge}
    (he : e ∈ c.edgesFrom first) :
    first ≤ e.1 ∧ e.1 < e.2 ∧ e.2 < first + c.leafCount := by
  induction c generalizing first with
  | leaf op perm => cases he
  | branch l r d hl hr =>
    rw [leafCount]
    rcases List.mem_append.1 he with he | he
    · rcases List.mem_append.1 he with he | he
      · have := hl he
        omega
      · have := hr he
        omega
    · have := mem_mergeEdges (l.within_users first) (r.within_users _) he
      omega

end Cluster

theorem scheduleFrom_range' {edges : List Edge} (h : ∀ e ∈ edges, e.1 < e.2) (n s : Nat) :
    scheduleFrom edges (List.range' s n) = List.range' s n := by
  induction n generalizing s with
  | zero => simp [scheduleFrom]
  | succ n ih =>
    have ready : (List.range' s (n + 1)).find? (fun i =>
        edges.all fun e => e.2 != i || !(List.range' s (n + 1)).contains e.1) = some s := by
      rw [List.range'_succ]
      refine List.find?_cons_of_pos (List.all_eq_true.2 fun e he => ?_)
      by_cases hs : e.2 = s
      · -- A producer of the leftmost leaf lies to its left.
        have hlt := h e he
        have hmem : e.1 ∉ s :: List.range' (s + 1) n := by
          rw [← List.range'_succ, List.mem_range'_1]
          omega
        simp [hmem]
      · simp [hs]
    unfold scheduleFrom
    split
    · rename_i hnone
      rw [ready] at hnone
      cases hnone
    · rename_i i hsome
      rw [ready] at hsome
      cases hsome
      rw [List.range'_succ, List.erase_cons_head, ih]

namespace Cluster

theorem schedule_eq_range {Op : Type} (c : Cluster Op) : c.schedule = List.range c.leafCount := by
  rw [schedule, List.range_eq_range']
  refine scheduleFrom_range' (fun e he => ?_) _ _
  exact (lt_of_mem_edgesFrom (List.mem_eraseDups.1 he)).2.1

end Cluster

end ArrayFusion
