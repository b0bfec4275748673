import ArrayFusion.Proofs.Cluster.Dataflow
import ArrayFusion.Proofs.Cluster.Schedule
import ArrayFusion.Proofs.Cluster.Temporaries
import ArrayFusion.Proofs.Kernel.Simulation
set_option autoImplicit false

/-!
A cluster does what its operations do one after the other. The two runs go side
by side, each temporary in place of the buffer that the operations share. The
contents of such a buffer become known when its producer has run, and no leaf
reads it before.
-/

namespace ArrayFusion

open Actual

theorem Joined.rename {ms : List MergeMode} {l r m c : List Actual} (h : Joined ms l r m c)
    (f : BufferId → BufferId) : Joined ms (l.map (Actual.rename f)) (r.map (Actual.rename f))
      (m.map (Actual.rename f)) (c.map (Actual.rename f)) := by
  have hp : ∀ {x : Actual} {p : Param}, Argument.param x = p →
      Argument.param (x.rename f) = p := fun {x p} hx => (param_rename f x).trans hx
  have hi : ∀ x : Actual, (Argument.toInput x).rename f = Argument.toInput (x.rename f) :=
    fun x => (toInput_rename f x).symm
  induction h with
  | nil => exact .nil
  | consumed hx _ ih =>
    rw [List.map_cons, List.map_cons, List.map_cons, hi]
    exact .consumed (hp hx) ih
  | kept hx _ ih =>
    rw [List.map_cons, List.map_cons, List.map_cons, hi]
    exact .kept (hp hx) ih
  | shared hx _ ih => exact .shared (hp hx) ih
  | rightOnly _ ih => exact .rightOnly ih
  | leftOnly _ ih => exact .leftOnly ih
  | rightOnlyOut hx _ ih => exact .rightOnlyOut (hp hx) ih
  | leftOnlyOut hx _ ih => exact .leftOnlyOut (hp hx) ih

namespace Cluster

theorem Carries.rename {Op : Type} {c : Cluster Op} {args inner : List Actual}
    {lists : List (List Actual)} (h : Carries c args inner lists) (f : BufferId → BufferId) :
    Carries c (args.map (Actual.rename f)) (inner.map (Actual.rename f))
      (lists.map (List.map (Actual.rename f))) := by
  induction h with
  | leaf ha =>
    obtain ⟨hs, rfl⟩ := Permutation.apply_eq_ok_iff.1 ha
    exact .leaf (Permutation.apply_eq_ok_iff.2
      ⟨hs.trans (signatureOf_rename f _).symm, map_reorder ..⟩)
  | branch hd _ _ hl hr =>
    rw [List.map_append, List.map_append, List.map_append]
    exact .branch ⟨(signatureOf_rename f _).trans hd.1, (signatureOf_rename f _).trans hd.2.1,
      hd.2.2.rename f⟩ hl hr

/-- Each list reads only what is known, or what an earlier list writes. -/
def ReadsKnown : (known : BufferId → Prop) → List (List Actual) → Prop
  | _, [] => True
  | known, l :: ls => (∀ b t, .input b t ∈ l → known b) ∧
    ReadsKnown (fun b => known b ∨ ∃ t, .output b t ∈ l) ls

theorem readsKnown_of_writesAt {known : BufferId → Prop} {lists : List (List Actual)}
    (h : ∀ k b, ReadsAt lists k b → known b ∨ ∃ j < k, WritesAt lists j b) :
    ReadsKnown known lists := by
  induction lists generalizing known with
  | nil => trivial
  | cons l ls ih =>
    constructor
    · intro b t hb
      rcases h 0 b ⟨l, t, rfl, hb⟩ with hk | ⟨j, hj, _⟩
      · exact hk
      · exact (Nat.not_lt_zero j hj).elim
    · refine ih fun k b ⟨l', t, hk, hb⟩ => ?_
      rcases h (k + 1) b ⟨l', t, hk, hb⟩ with hk | ⟨j, hj, w, u, hw, hu⟩
      · exact .inl (.inl hk)
      · cases j with
        | zero =>
          cases hw
          exact .inl (.inr ⟨u, hu⟩)
        | succ j => exact .inr ⟨j, Nat.lt_of_succ_lt_succ hj, w, u, hw, hu⟩

section Run

variable {Op : Type} [Executable Op]

def runEach : List Op → List (List Actual) → Action Heap Unit
  | op :: ops, args :: lists => do
    Executable.execute op args
    runEach ops lists
  | _, _ => pure ()

theorem runEach_append {ks ls : List Op} {as bs : List (List Actual)}
    (h : as.length = ks.length) :
    runEach (ks ++ ls) (as ++ bs) = runEach ks as >>= fun _ => runEach ls bs := by
  induction ks generalizing as with
  | nil =>
    obtain rfl := List.length_eq_zero_iff.1 h
    rfl
  | cons k ks ih =>
    obtain ⟨args, as, rfl⟩ := List.exists_cons_of_length_eq_add_one h
    rw [List.cons_append, List.cons_append, runEach, runEach, ih (Nat.succ.inj h), bind_assoc]

theorem runOrder_range' {leaves ops : List Op} {lists rest : List (List Actual)}
    (hl : lists.length = leaves.length) (hr : rest.length = ops.length) :
    runOrder (leaves ++ ops) (lists ++ rest) (List.range' leaves.length ops.length) =
      runEach ops rest := by
  induction ops generalizing leaves lists rest with
  | nil =>
    obtain rfl := List.length_eq_zero_iff.1 hr
    rfl
  | cons op ops ih =>
    cases rest with
    | nil => cases hr
    | cons args rest =>
      have hop : (leaves ++ op :: ops)[leaves.length]? = some op := by simp
      have hargs : (lists ++ args :: rest)[leaves.length]? = some args := by simp [← hl]
      have ih := @ih (leaves ++ [op]) (lists ++ [args]) rest (by simp [hl])
        (Nat.succ.inj hr)
      simp only [List.length_append, List.length_cons, List.length_nil, List.append_assoc,
        List.cons_append, List.nil_append] at ih
      rw [List.length_cons, List.range'_succ, runOrder, hop, hargs, ih]
      rfl

theorem runLeaves_eq {c : Cluster Op} (hc : c.WellFormed)
    {args inner : List Actual} {lists : List (List Actual)} (h : Carries c args inner lists) :
    c.runLeaves args inner = runEach c.leaves lists := by
  have hl : lists.length = c.leaves.length := h.length_lists.trans c.length_leaves.symm
  have hrun := @runOrder_range' Op _ [] c.leaves [] lists rfl hl
  rw [runLeaves, (leafArguments_eq_ok_iff hc).2 h, schedule_eq_range, ← c.length_leaves,
    List.range_eq_range']
  exact hrun

end Run

open Heap in
/-- Lists under other names have the same effect under these names, as long as
each reads only what is known. -/
theorem runEach_coupled {ρ : Renaming} {ops : List Kernel} {lists : List (List Actual)}
    (hs : lists.map signatureOf = ops.map Operation.signature)
    (hd : ∀ l ∈ lists, ∀ b ∈ buffers l, ρ.dom b) {known : BufferId → Prop}
    (hr : ReadsKnown known lists) :
    Action.Coupled True (Agrees ρ fun b _ => known b) (fun _ _ => Agrees ρ fun b _ => known b)
      (Agrees ρ fun b _ => known b) (runEach ops lists)
      (runEach ops (lists.map (List.map (Actual.rename ρ.map)))) := by
  induction ops generalizing lists known with
  | nil =>
    obtain rfl := List.map_eq_nil_iff.1 hs
    exact Action.coupled_pure fun h g ha => ha
  | cons op ops ih =>
    obtain ⟨l, lists, rfl, hl, hs⟩ := List.map_eq_cons_iff.1 hs
    obtain ⟨hin, hr⟩ := hr
    have hexec := @Kernel.execute_coupled ρ (fun b _ => known b) op l hl.symm
      (hd l (List.mem_cons_self ..)) fun b t hb _ => hin b t hb
    refine Action.Coupled.bind hexec fun _ _ => ?_
    refine (ih hs (fun l' hl' => hd l' (List.mem_cons_of_mem _ hl')) hr).mono
      (fun _ _ ha => ha) (fun _ _ h g ha => ?_) (fun h g ha => ?_)
    · exact ha.mono fun b _ _ hb => .inl hb
    · exact ha.mono fun b _ _ hb => .inl hb

theorem Carries.inner_live {c : Cluster Kernel} (hc : c.WellFormed) {args inner : List Actual}
    {lists : List (List Actual)} (hcar : Carries c args inner lists) {h : Heap}
    (hlive : ∀ l ∈ lists, ∀ b ∈ buffers l, (h.find? b).isSome)
    (hscalar : ∀ p ∈ c.intermediates, ∀ rank elem, p.ty.asArray = some (rank, elem) →
      elem.isScalar) {a : Actual} (ha : a ∈ inner) :
    ∃ b rank elem x, a = .output b (.array rank elem) ∧ elem.isScalar ∧ h.find? b = some x := by
  obtain ⟨b, t, rfl⟩ := hcar.exists_output_of_mem_inner ha
  obtain ⟨l, hl, hal⟩ := hcar.exists_mem_lists (List.mem_append_right _ ha)
  obtain ⟨x, hx⟩ := Option.isSome_iff_exists.1 (hlive l hl b (mem_buffers.2 ⟨_, hal, rfl⟩))
  have hsig : signatureOf l ∈ c.leaves.map Operation.signature :=
    hcar.map_signatureOf hc ▸ List.mem_map_of_mem hl
  obtain ⟨k, _, hk⟩ := List.mem_map.1 hsig
  have hout : ⟨.output, t⟩ ∈ k.signature := by
    change _ ∈ Operation.signature k
    rw [hk]
    exact List.mem_map_of_mem hal
  obtain ⟨rank, elem, rfl⟩ := Kernel.eq_array_of_output hout
  have hmem : ⟨.output, .array rank elem⟩ ∈ c.intermediates := by
    rw [← hcar.signatureOf_inner]
    exact List.mem_map_of_mem ha
  exact ⟨b, rank, elem, x, rfl, hscalar _ hmem rank elem rfl, hx⟩

/-- The buffers inside have unknown contents at first, and every leaf keeps its
hands off them until they are written. -/
theorem Carries.readsKnown {Op : Type} {c : Cluster Op} {args inner : List Actual}
    {lists : List (List Actual)} (hcar : Carries c args inner lists)
    (hdis : ∀ b ∈ buffers inner, b ∉ buffers args) :
    ReadsKnown (fun b => b ∉ buffers inner) lists := by
  refine readsKnown_of_writesAt fun k b hr => ?_
  by_cases hbm : b ∈ buffers inner
  · refine .inr (hcar.exists_writesAt_lt (fun a ha hab => ?_) hr)
    rcases List.mem_append.1 ha with ha | ha
    · exact absurd (mem_buffers.2 ⟨a, ha, hab⟩) (hdis b hbm)
    · obtain ⟨b', t, rfl⟩ := hcar.exists_output_of_mem_inner ha
      cases hab
      exact ⟨t, rfl⟩
  · exact .inl hbm

theorem agrees_standIns {h g : Heap} (hh : h.WellSized) {bs : List BufferId}
    (hold : ∀ b x, h.find? b = some x → g.find? b = some x)
    (hnew : ∀ b ∈ bs, ∀ x, h.find? b = some x → ∃ y, g.find? (standIn h.next bs b) = some y ∧
      y.shape = x.shape ∧ y.data.length = x.shape.volume) :
    Heap.Agrees (h.standIns bs) (fun b _ => b ∉ bs) h g := by
  intro b hb
  obtain ⟨x, hx⟩ := Option.isSome_iff_exists.1 hb
  by_cases hbm : b ∈ bs
  · obtain ⟨y, hy, hs, hlen⟩ := hnew b hbm x hx
    exact ⟨x, y, hx, hy, hs, hh b x hx, hlen, fun _ hk => (hk hbm).elim⟩
  · refine ⟨x, x, hx, ?_, rfl, hh b x hx, hh b x hx, fun _ _ => rfl⟩
    change g.find? (standIn h.next bs b) = some x
    rw [standIn_of_not_mem hbm]
    exact hold b x hx

theorem find?_eq_of_agrees {h fused separate : Heap} {inner : List Actual}
    (ha : Heap.Agrees (h.standIns (buffers inner)) (fun b _ => b ∉ buffers inner) separate fused)
    {b : BufferId} (hb : (h.find? b).isSome) (hbm : b ∉ buffers inner) :
    ∃ x, (freeAll (inner.map (Actual.rename (standIn h.next (buffers inner)))) fused).find? b =
      some x ∧ separate.find? b = some x := by
  obtain ⟨x, y, hx, hy, hxy⟩ := ha b hb
  change fused.find? (standIn h.next (buffers inner) b) = some y at hy
  rw [standIn_of_not_mem hbm] at hy
  have hnot : b ∉ buffers (inner.map (Actual.rename (standIn h.next (buffers inner)))) := by
    rw [buffers_rename, List.mem_map]
    rintro ⟨c, hc, rfl⟩
    obtain ⟨z, hz⟩ := Option.isSome_iff_exists.1 hb
    have := Heap.number_lt_next hz
    have := number_standIn (n := h.next) hc
    omega
  exact ⟨x, by rw [find?_freeAll, if_neg hnot, hy, hxy.eq fun _ => hbm], hx⟩

/-- A fused run does what the separate operations do: it ends in the same way, and
no buffer but those of the arrays inside shows a difference. -/
theorem run_refines_runEach (c : Cluster Kernel) (hc : c.WellFormed) {lists : List (List Actual)}
    {args inner : List Actual} (hl : c.combineArguments lists = .ok (args, inner)) {h : Heap}
    (hh : h.WellSized) (hlive : ∀ l ∈ lists, ∀ b ∈ buffers l, (h.find? b).isSome)
    (hn : (buffers inner).Nodup) (hdis : ∀ b ∈ buffers inner, b ∉ buffers args)
    (hscalar : ∀ p ∈ c.intermediates, ∀ rank elem, p.ty.asArray = some (rank, elem) →
      elem.isScalar) :
    ∃ r fused separate, (c.run args (h.shapesOf inner)).outcome h = (r, fused) ∧
      (runEach c.leaves lists).outcome h = (r, separate) ∧
      ∀ b, (h.find? b).isSome → b ∉ buffers inner →
        ∃ x, fused.find? b = some x ∧ separate.find? b = some x := by
  have hcar := combineArguments_eq_ok_iff.1 hl
  have hinner := fun a ha => hcar.inner_live (a := a) hc hlive hscalar ha
  obtain ⟨g, hg, hold, hnew⟩ := exists_allocate h hn hinner h
  let f := standIn h.next (buffers inner)
  have hargs : args.map (Actual.rename f) = args := by
    refine (List.map_congr_left fun a ha => rename_of_fixed fun b hb => ?_).trans (List.map_id args)
    exact standIn_of_not_mem fun hbm => hdis b hbm (mem_buffers.2 ⟨a, ha, hb⟩)
  have hcar' := hcar.rename f
  rw [hargs] at hcar'
  have hlen : c.intermediates.length = (h.shapesOf inner).length := by
    rw [← hcar.signatureOf_inner, length_signatureOf, Heap.length_shapesOf]
    intro a ha
    obtain ⟨b, _, _, x, rfl, _, hx⟩ := hinner a ha
    exact ⟨b, x, rfl, hx⟩
  rw [hcar.signatureOf_inner] at hg
  have hrun : c.run args (h.shapesOf inner) h =
      Action.afterwards (freeAll (inner.map (Actual.rename f)))
        (runEach c.leaves (lists.map (List.map (Actual.rename f)))) g := by
    rw [run_of_allocate hlen hg, runLeaves_eq hc hcar']
  have hboth := @runEach_coupled (h.standIns (buffers inner)) c.leaves lists
    (hcar.map_signatureOf hc) hlive _ (hcar.readsKnown hdis)
  obtain ⟨r, separate, fused, hs, hf, ha⟩ := hboth.exists_outcome (agrees_standIns hh hold hnew)
  refine ⟨r, _, separate, ?_, hs, fun b hb hbm => find?_eq_of_agrees ha hb hbm⟩
  have hout := Action.outcome_afterwards (f := freeAll (inner.map (Actual.rename f))) hf
  unfold Action.outcome at hout ⊢
  rw [hrun]
  exact hout

/-- Two copies fused. One after the other they copy the first buffer to the others. -/
theorem run_refines_runEach_copies :
    let v : Ty := .array 1 (.int 64)
    let copy : Cluster Kernel := single (.copy 1 (.int 64))
    let args := [Actual.input ⟨0⟩ v, .output ⟨2⟩ v]
    let inner := [Actual.output ⟨1⟩ v]
    let lists := [[Actual.input ⟨0⟩ v, .output ⟨1⟩ v], [.input ⟨1⟩ v, .output ⟨2⟩ v]]
    let x : Buffer := ⟨[2], [.int 3, .int 4]⟩
    let y : Buffer := ⟨[2], [.int 7, .int 8]⟩
    let h : Heap := ⟨[some x, some y, some y]⟩
    ∃ c : Cluster Kernel, fuse copy copy [.leftOnly, .consumed, .rightOnlyOut] = .ok c ∧
      c.combineArguments lists = .ok (args, inner) ∧
      (runEach c.leaves lists).outcome h = (.ok (), ⟨[some x, some x, some x]⟩) ∧
      ∃ r fused separate, (c.run args (h.shapesOf inner)).outcome h = (r, fused) ∧
        (runEach c.leaves lists).outcome h = (r, separate) ∧
        ∀ b, (h.find? b).isSome → b ∉ buffers inner →
          ∃ x, fused.find? b = some x ∧ separate.find? b = some x := by
  intro v copy args inner lists x y h
  have hh : h.WellSized := by
    rintro ⟨n⟩ z hz
    rcases n with _ | _ | _ | n
    · cases hz ; rfl
    · cases hz ; rfl
    · cases hz ; rfl
    · cases hz
  refine ⟨_, rfl, rfl, rfl, run_refines_runEach _ ?hc rfl hh (by decide) (by decide) (by decide)
    ?hs⟩
  case hc => exact ⟨rfl, rfl, rfl, rfl⟩
  case hs =>
    intro p hp rank elem he
    obtain rfl := List.mem_singleton.1 hp
    cases he
    rfl

end Cluster

end ArrayFusion
