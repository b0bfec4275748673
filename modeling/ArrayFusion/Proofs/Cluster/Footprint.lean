import ArrayFusion.Proofs.Cluster.Dataflow
import ArrayFusion.Proofs.Cluster.Release
import ArrayFusion.Proofs.Cluster.Schedule
set_option autoImplicit false

namespace ArrayFusion

open Actual

namespace Cluster

section Leaves

variable {Op : Type} {c : Cluster Op} {args inner : List Actual}

theorem exists_output_of_leafArguments {lists : List (List Actual)}
    (h : c.leafArguments args inner = .ok lists) {l : List Actual} (hl : l ∈ lists)
    {b : BufferId} {t : Ty} (hb : .output b t ∈ l) : ∃ u, .output b u ∈ args ++ inner := by
  obtain ⟨_, _, h⟩ := bind_eq_ok.1 h
  obtain ⟨_, _, h⟩ := bind_eq_ok.1 h
  obtain ⟨⟨lists', rest⟩, hd, h⟩ := bind_eq_ok.1 h
  cases h
  obtain ⟨own, rfl, hcar⟩ := carries_of_distribute hd
  obtain ⟨k, hk⟩ := List.mem_iff_getElem?.1 hl
  obtain ⟨u, hu⟩ := hcar.exists_output_of_writesAt ⟨l, t, hk, hb⟩
  exact ⟨u, by rw [← List.append_assoc] ; exact List.mem_append_left _ hu⟩

end Leaves

variable (c : Cluster Kernel) (args : List Actual)

theorem runLeaves_obeys_changesOnly (inner : List Actual) :
    (c.runLeaves args inner).Obeys
      (Heap.changesOnly fun b => ∃ t, .output b t ∈ args ++ inner) :=
  runLeaves_obeys fun _ hlists k _ _ hl => k.execute_obeys fun _ _ hb =>
    Heap.write_obeys_changesOnly (exists_output_of_leafArguments hlists hl hb)

theorem outcome_run_cases (shapes : List Shape) (h : Heap) :
    (∃ e fresh, (c.run args shapes).outcome h = (.error e, h.grow fresh)) ∨
      ∃ temporaries fresh r g,
        (c.runLeaves args temporaries).outcome (h.grow fresh) = (r, g) ∧
        (c.run args shapes).outcome h = (r, freeAll temporaries g) ∧
        ∀ b ∈ buffers temporaries, h.next ≤ b.number := by
  by_cases hl : c.intermediates.length = shapes.length
  · by_cases hp : ∀ p ∈ c.intermediates, p.storable
    · obtain ⟨temporaries, fresh, ha, hts, _⟩ := exists_allocate_eq_ok hl hp h
      refine .inr ⟨temporaries, fresh, _, _, rfl, outcome_run_of_allocate_ok hl ha rfl,
        fun b hb => ?_⟩
      rw [hts] at hb
      obtain ⟨n, hn, rfl⟩ := List.mem_map.1 hb
      exact (List.mem_range'_1.1 hn).1
    · obtain ⟨e, fresh, ha, _⟩ := exists_allocate_eq_error hl hp h
      exact .inl ⟨e, fresh, outcome_run_of_allocate_error hl ha⟩
  · obtain ⟨e, hrun⟩ := @outcome_run_of_length_ne _ _ c args shapes h hl
    exact .inl ⟨e, [], by rw [hrun, Heap.grow_nil]⟩

/-- However a run ends, a buffer that was live before is still live in its shape, and
holds what it held unless it is passed as an output. -/
theorem run_changes_only_outputs (shapes : List Shape) {h : Heap} {b : BufferId} {x : Buffer}
    (hb : h.find? b = some x) :
    ∃ y, ((c.run args shapes).outcome h).2.find? b = some y ∧ y.shape = x.shape ∧
      y.data.length = x.data.length ∧ ((∀ t, .output b t ∉ args) → y = x) := by
  rcases outcome_run_cases c args shapes h with
    ⟨e, fresh, hrun⟩ | ⟨temporaries, fresh, r, g, hr, hrun, hnew⟩
  · rw [hrun]
    exact ⟨x, Heap.find?_grow_of_find? hb fresh, rfl, rfl, fun _ => rfl⟩
  · -- The temporaries are numbered after all buffers that were there before.
    have hold : b ∉ buffers temporaries := fun hm =>
      Nat.not_lt.2 (hnew b hm) (Heap.number_lt_next hb)
    have hchanges := c.runLeaves_obeys_changesOnly args temporaries (h.grow fresh) b x
      (Heap.find?_grow_of_find? hb fresh)
    rw [hr] at hchanges
    obtain ⟨y, hy, hs, hl, he⟩ := hchanges
    rw [hrun, find?_freeAll, if_neg hold]
    refine ⟨y, hy, hs, hl, fun hargs => he ?_⟩
    rintro ⟨t, ht⟩
    rcases List.mem_append.1 ht with ht | ht
    · exact hargs t ht
    · exact hold (mem_buffers.2 ⟨_, ht, rfl⟩)

/-- The second leaf divides by what the first one copies and faults at the second
element. The input is as it was, the output half written, the temporary freed. -/
theorem run_changes_only_outputs_quotients :
    let i : Ty := .int 64
    let v : Ty := .array 1 i
    let quotients : Cluster Kernel :=
      single (.map 1 i i (.unary i (.binary .div (.const (.int 6)) (.var ⟨0, i⟩))))
    let args := [Actual.input ⟨0⟩ v, .output ⟨1⟩ v]
    let x : Buffer := ⟨[2], [.int 3, .int 0]⟩
    let h : Heap := ⟨[some x, some ⟨[2], [.int 7, .int 8]⟩]⟩
    ∃ c : Cluster Kernel,
      fuse (single (.copy 1 i)) quotients [.leftOnly, .consumed, .rightOnlyOut] = .ok c ∧
      (c.run args [[2]]).outcome h = (.error (.invariant .divisionByZero),
        ⟨[some x, some ⟨[2], [.int 2, .int 8]⟩, none]⟩) ∧
      h.find? ⟨0⟩ = some x ∧
      ∃ y, ((c.run args [[2]]).outcome h).2.find? ⟨0⟩ = some y ∧ y.shape = x.shape ∧
        y.data.length = x.data.length ∧ ((∀ t, .output ⟨0⟩ t ∉ args) → y = x) := by
  intro i v quotients args x h
  refine ⟨_, rfl, ?_, rfl, run_changes_only_outputs _ args [[2]] rfl⟩
  simp only [run, runLeaves, schedule_eq_range]
  rfl

end Cluster

end ArrayFusion
