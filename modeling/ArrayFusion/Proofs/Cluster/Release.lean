import ArrayFusion.Proofs.Cluster.Temporaries
import ArrayFusion.Proofs.Kernel.Writes
set_option autoImplicit false

namespace ArrayFusion

open Actual

def Param.storable (p : Param) : Bool :=
  match p.ty.asArray with
  | some (_, elem) => elem.isScalar
  | none => false

namespace Cluster

theorem allocate_cons_of_storable {p : Param} (hp : p.storable) (shape : Shape)
    (rest : List (Param × Shape)) (h : Heap) :
    ∃ x, (x.shape = shape ∧ x.data.length = x.shape.volume) ∧ allocate ((p, shape) :: rest) h =
      (allocate rest >>= fun others => pure (.output ⟨h.next⟩ p.ty :: others)) (h.grow [x]) := by
  unfold Param.storable at hp
  split at hp
  · rename_i rank elem he
    obtain ⟨zero, hz⟩ := Heap.exists_zeroOf hp
    rw [allocate]
    simp only [he]
    simp only [bind, EStateM.bind, Heap.alloc_eq_ok hz]
    exact ⟨_, ⟨rfl, List.length_replicate⟩, rfl⟩
  · cases hp

theorem allocate_cons_of_not_storable {p : Param} (hp : ¬p.storable) (shape : Shape)
    (rest : List (Param × Shape)) (h : Heap) :
    ∃ e, allocate ((p, shape) :: rest) h = .error e h := by
  unfold Param.storable at hp
  rw [allocate]
  split at hp
  · rename_i rank elem he
    obtain ⟨e, hz⟩ := Heap.exists_zeroOf_error hp
    simp only [he]
    simp only [bind, EStateM.bind, Heap.alloc, Action.ofExcept, hz]
    exact ⟨_, rfl⟩
  · rename_i he
    simp only [he]
    exact ⟨_, rfl⟩

theorem exists_allocate_eq_ok {ps : Signature} {shapes : List Shape}
    (hl : ps.length = shapes.length) (hp : ∀ p ∈ ps, p.storable) (h : Heap) :
    ∃ temporaries fresh, allocate (ps.zip shapes) h = .ok temporaries (h.grow fresh) ∧
      buffers temporaries = (List.range' h.next fresh.length).map BufferId.mk ∧
      signatureOf temporaries = ps.map (fun p => ⟨.output, p.ty⟩) ∧
      fresh.map Buffer.shape = shapes ∧ ∀ x ∈ fresh, x.data.length = x.shape.volume := by
  induction ps generalizing shapes h with
  | nil =>
    obtain rfl := List.length_eq_zero_iff.1 hl.symm
    exact ⟨[], [], by rw [Heap.grow_nil] ; rfl, rfl, rfl, rfl, List.forall_mem_nil _⟩
  | cons p ps ih =>
    obtain ⟨shape, shapes, rfl⟩ := List.exists_cons_of_length_eq_add_one hl.symm
    obtain ⟨hp, hps⟩ := List.forall_mem_cons.1 hp
    obtain ⟨x, ⟨hshape, hsize⟩, hx⟩ := allocate_cons_of_storable hp shape (ps.zip shapes) h
    obtain ⟨ts, fresh, ha, hb, hts, hshapes, hsizes⟩ := ih (Nat.succ.inj hl) hps (h.grow [x])
    rw [Heap.next_grow] at hb
    refine ⟨.output ⟨h.next⟩ p.ty :: ts, x :: fresh, ?_, ?_, ?_, ?_, ?_⟩
    · rw [List.zip_cons_cons, hx, Heap.grow_cons h x fresh]
      exact Action.bind_eq_ok_iff.2 ⟨ts, _, ha, rfl⟩
    · rw [List.length_cons, List.range'_succ, List.map_cons]
      exact congrArg (⟨h.next⟩ :: ·) hb
    · exact congrArg (⟨.output, p.ty⟩ :: ·) hts
    · rw [List.map_cons, hshape, hshapes]
    · exact List.forall_mem_cons.2 ⟨hsize, hsizes⟩

theorem exists_allocate_eq_error {ps : Signature} {shapes : List Shape}
    (hl : ps.length = shapes.length) (hp : ¬∀ p ∈ ps, p.storable) (h : Heap) :
    ∃ e fresh, allocate (ps.zip shapes) h = .error e (h.grow fresh) ∧
      (fresh = [] ↔ ¬∃ p ∈ ps.head?, p.storable) := by
  induction ps generalizing shapes h with
  | nil => exact absurd (List.forall_mem_nil _) hp
  | cons p ps ih =>
    obtain ⟨shape, shapes, rfl⟩ := List.exists_cons_of_length_eq_add_one hl.symm
    rw [List.zip_cons_cons]
    by_cases hfirst : p.storable
    · obtain ⟨x, _, hx⟩ := allocate_cons_of_storable hfirst shape (ps.zip shapes) h
      have hrest : ¬∀ p ∈ ps, p.storable := fun hps => hp (List.forall_mem_cons.2 ⟨hfirst, hps⟩)
      obtain ⟨e, fresh, ha, _⟩ := ih (Nat.succ.inj hl) hrest (h.grow [x])
      refine ⟨e, x :: fresh, ?_, by simp [hfirst]⟩
      rw [hx, Heap.grow_cons h x fresh]
      exact Action.bind_eq_error_iff.2 (.inl ha)
    · obtain ⟨e, ha⟩ := allocate_cons_of_not_storable hfirst shape (ps.zip shapes) h
      exact ⟨e, [], by rw [ha, Heap.grow_nil], by simp [hfirst]⟩

section Leaves

variable {Op : Type} [Executable Op] {F : Frame Heap}

theorem runOrder_obeys {leaves : List Op} {lists : List (List Actual)}
    (h : ∀ op ∈ leaves, ∀ args ∈ lists, (Executable.execute op args).Obeys F) (order : List Nat) :
    (runOrder leaves lists order).Obeys F := by
  induction order with
  | nil => exact Action.obeys_pure ()
  | cons i is ih =>
    rw [runOrder]
    split
    · rename_i op args hop hargs
      exact (h op (List.mem_of_getElem? hop) args (List.mem_of_getElem? hargs)).bind fun _ => ih
    · exact ih

theorem runLeaves_obeys {c : Cluster Op} {args inner : List Actual}
    (h : ∀ lists, c.leafArguments args inner = .ok lists → ∀ op ∈ c.leaves, ∀ l ∈ lists,
      (Executable.execute op l).Obeys F) : (c.runLeaves args inner).Obeys F :=
  Action.obeys_ofExcept_bind fun lists hl => runOrder_obeys (h lists hl) c.schedule

end Leaves

section Faults

variable {Op : Type} [Executable Op] {c : Cluster Op} {args : List Actual} {shapes : List Shape}
  {h : Heap}

theorem outcome_run_of_length_ne (hl : c.intermediates.length ≠ shapes.length) :
    ∃ e, (c.run args shapes).outcome h = (.error e, h) := by
  unfold Action.outcome run
  rw [if_pos hl]
  exact ⟨_, rfl⟩

theorem outcome_run_of_allocate_error {g : Heap} {e : Fault}
    (hl : c.intermediates.length = shapes.length)
    (ha : allocate (c.intermediates.zip shapes) h = .error e g) :
    (c.run args shapes).outcome h = (.error e, g) := by
  unfold Action.outcome run
  rw [if_neg (not_not_intro hl)]
  simp only [bind, EStateM.bind, ha]

theorem outcome_run_of_allocate_ok {temporaries : List Actual} {r : Except Fault Unit} {g s : Heap}
    (hl : c.intermediates.length = shapes.length)
    (ha : allocate (c.intermediates.zip shapes) h = .ok temporaries g)
    (hr : (c.runLeaves args temporaries).outcome g = (r, s)) :
    (c.run args shapes).outcome h = (r, freeAll temporaries s) := by
  unfold Action.outcome
  rw [run_of_allocate hl ha]
  exact Action.outcome_afterwards hr

end Faults

theorem isSome_find?_of_run {c : Cluster Kernel} {args : List Actual} {shapes : List Shape}
    (hl : c.intermediates.length = shapes.length) (hp : ∀ p ∈ c.intermediates, p.storable)
    {h : Heap} {b : BufferId} (hb : (((c.run args shapes).outcome h).2.find? b).isSome) :
    (h.find? b).isSome := by
  obtain ⟨temporaries, fresh, ha, hts, _⟩ := exists_allocate_eq_ok hl hp h
  have hobeys : (c.runLeaves args temporaries).Obeys Heap.sameLive :=
    runLeaves_obeys fun _ _ k _ l _ =>
      k.execute_obeys fun b _ _ => Heap.write_obeys_sameLive b
  obtain ⟨r, g, hr⟩ : ∃ r g, (c.runLeaves args temporaries).outcome (h.grow fresh) = (r, g) :=
    ⟨_, _, rfl⟩
  have hlive := hobeys (h.grow fresh) b
  rw [hr] at hlive
  rw [outcome_run_of_allocate_ok hl ha hr, find?_freeAll] at hb
  split at hb
  · cases hb
  · rename_i hmem
    rw [hlive, Heap.isSome_find?_grow] at hb
    -- A buffer that is new is one of the temporaries, all of which have been freed.
    refine hb.resolve_right fun hnew => hmem ?_
    rw [hts, List.mem_map]
    exact ⟨b.number, List.mem_range'_1.2 hnew, rfl⟩

/-- A run leaves no buffer live that was not live before, unless the first of its
temporaries can be made and a later one cannot. -/
theorem live_run_iff (c : Cluster Kernel) (args : List Actual) (shapes : List Shape) (h : Heap) :
    (∀ b, (((c.run args shapes).outcome h).2.find? b).isSome → (h.find? b).isSome) ↔
      (c.intermediates.length = shapes.length → (∃ p ∈ c.intermediates.head?, p.storable) →
        ∀ p ∈ c.intermediates, p.storable) := by
  by_cases hl : c.intermediates.length = shapes.length
  · by_cases hp : ∀ p ∈ c.intermediates, p.storable
    · exact ⟨fun _ _ _ => hp, fun _ b => isSome_find?_of_run hl hp⟩
    · obtain ⟨e, fresh, ha, hfresh⟩ := exists_allocate_eq_error hl hp h
      rw [outcome_run_of_allocate_error hl ha, Heap.forall_isSome_of_grow_iff, hfresh]
      exact ⟨fun hnone _ hfirst => absurd hfirst hnone, fun hall hfirst => hp (hall hl hfirst)⟩
  · obtain ⟨e, hrun⟩ := @outcome_run_of_length_ne _ _ c args shapes h hl
    rw [hrun]
    exact ⟨fun _ hl' => absurd hl' hl, fun _ b hb => hb⟩

/-- Between the leaves there are integers and then units, which cannot be stored. The
buffer for the integers stays live. -/
theorem live_run_units :
    let i : Ty := .int 64
    let units : Cluster Kernel := single (.generate 1 .unit (.lam (.slot i) (.body .nil)))
    let ones : Cluster Kernel :=
      single (.map 1 .unit i (.unary .unit (.const (.int 1))))
    let successors : Cluster Kernel :=
      single (.map 1 i i (.unary i (.binary .add (.var ⟨0, i⟩) (.const (.int 1)))))
    let x : Buffer := ⟨[2], [.int 1, .int 2]⟩
    let zeros : Buffer := ⟨[2], [.int 0, .int 0]⟩
    ∃ c d : Cluster Kernel, fuse units ones [.consumed, .rightOnlyOut] = .ok c ∧
      fuse c successors [.consumed, .rightOnlyOut] = .ok d ∧
      (d.run [.output ⟨0⟩ (.array 1 i)] [[2], [2]]).outcome ⟨[some x]⟩ =
        (.error (.invariant (.notStorable .unit)), ⟨[some x, some zeros]⟩) ∧
      ¬∀ b, (((d.run [.output ⟨0⟩ (.array 1 i)] [[2], [2]]).outcome ⟨[some x]⟩).2.find? b).isSome →
        (Heap.find? ⟨[some x]⟩ b).isSome := by
  intro i units ones successors x zeros
  refine ⟨_, _, rfl, rfl, rfl, fun hlive => ?_⟩
  have hnew := hlive ⟨1⟩ rfl
  cases hnew

end Cluster

end ArrayFusion
