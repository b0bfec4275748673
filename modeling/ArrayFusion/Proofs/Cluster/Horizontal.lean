import ArrayFusion.Proofs.Cluster.Nesting
import ArrayFusion.Proofs.Cluster.Release
import ArrayFusion.Proofs.Cluster.Schedule
set_option autoImplicit false

namespace ArrayFusion

open Cluster

def horizontal {Op : Type} (l r : Cluster Op) : List MergeMode :=
  .shared :: (List.replicate (l.external.count .output) .leftOnlyOut ++
    List.replicate (r.external.count .output) .rightOnlyOut)

def Kernel.result : Kernel → Ty
  | .map _ _ b _ | .zipWith _ _ _ b _ | .generate _ b _ => b

def oneInput (rank : Nat) (input : Ty) (outputs : List Ty) : Signature :=
  ⟨.input, .array rank input⟩ :: outputs.map fun t => ⟨.output, .array rank t⟩

theorem count_oneInput (rank : Nat) (input : Ty) (outputs : List Ty) :
    (oneInput rank input outputs).count .output = outputs.length := by
  simp only [Signature.count, oneInput]
  rw [List.countP_cons_of_neg (by simp), List.countP_eq_length.2 (by simp), List.length_map]

section Merge

variable {α : Type} [Argument α]

theorem joined_rightOutputs {r : List α} (hr : ∀ y ∈ r, ∃ t, Argument.param y = ⟨.output, t⟩) :
    Joined (List.replicate r.length .rightOnlyOut) [] r r [] := by
  induction r with
  | nil => exact .nil
  | cons y r ih =>
    obtain ⟨⟨t, hy⟩, hr⟩ := List.forall_mem_cons.1 hr
    exact .rightOnlyOut hy (ih hr)

theorem joined_outputs {l r : List α} (hl : ∀ y ∈ l, ∃ t, Argument.param y = ⟨.output, t⟩)
    (hr : ∀ y ∈ r, ∃ t, Argument.param y = ⟨.output, t⟩) :
    Joined (List.replicate l.length .leftOnlyOut ++ List.replicate r.length .rightOnlyOut)
      l r (l ++ r) [] := by
  induction l with
  | nil => exact joined_rightOutputs hr
  | cons y l ih =>
    obtain ⟨⟨t, hy⟩, hl⟩ := List.forall_mem_cons.1 hl
    exact .leftOnlyOut hy (ih hl)

end Merge

theorem mergeEdges_eq_nil {ms : List MergeMode} (h : ∀ m ∈ ms, m ≠ .consumed ∧ m ≠ .kept)
    (l r : List (List Nat)) : mergeEdges ms l r = [] := by
  induction ms generalizing l r with
  | nil => rfl
  | cons m ms ih =>
    obtain ⟨⟨hc, hk⟩, hms⟩ := List.forall_mem_cons.1 h
    cases m with
    | consumed => exact (hc rfl).elim
    | kept => exact (hk rfl).elim
    | shared | rightOnly | rightOnlyOut | leftOnly | leftOnlyOut => exact ih hms _ _

/-- Clusters of kernels that map one array, fused side by side. -/
inductive SideBySide (rank : Nat) (input : Ty) : List Ty → Cluster Kernel → Prop where
  | one (output : Ty) (f : Fn) : SideBySide rank input [output] (.single (.map rank input output f))
  | both {l r : Cluster Kernel} {us vs : List Ty} {d : Merge} : SideBySide rank input us l →
      SideBySide rank input vs r → d.modes = horizontal l r → d.left = l.external →
      d.right = r.external → SideBySide rank input (us ++ vs) (.branch l r d)

namespace SideBySide

variable {rank : Nat} {input : Ty} {us vs : List Ty} {c : Cluster Kernel}

section Arguments

variable {α : Type} [Argument α]

theorem outputs_of_signatureOf {x : α} {ys : List α}
    (h : signatureOf (x :: ys) = oneInput rank input us) :
    Argument.param x = ⟨.input, .array rank input⟩ ∧ ys.length = us.length ∧
      ∀ y ∈ ys, ∃ t, Argument.param y = ⟨.output, t⟩ := by
  obtain ⟨hx, hys⟩ := List.cons.inj h
  refine ⟨hx, by simpa using congrArg List.length hys, fun y hy => ?_⟩
  obtain ⟨t, _, ht⟩ := List.mem_map.1 (hys ▸ List.mem_map_of_mem hy)
  exact ⟨_, ht.symm⟩

theorem joined {l r : Cluster Kernel} (hl : l.external = oneInput rank input us)
    (hr : r.external = oneInput rank input vs) {x : α} {ys zs : List α}
    (hy : signatureOf (x :: ys) = oneInput rank input us)
    (hz : signatureOf (x :: zs) = oneInput rank input vs) :
    Joined (horizontal l r) (x :: ys) (x :: zs) (x :: (ys ++ zs)) [] := by
  obtain ⟨hx, hus, hys⟩ := outputs_of_signatureOf hy
  obtain ⟨_, hvs, hzs⟩ := outputs_of_signatureOf hz
  rw [horizontal, hl, hr, count_oneInput, count_oneInput, ← hus, ← hvs]
  exact .shared hx (joined_outputs hys hzs)

theorem merges {l r : Cluster Kernel} (hl : l.external = oneInput rank input us)
    (hr : r.external = oneInput rank input vs) :
    Merges (horizontal l r) l.external r.external (oneInput rank input (us ++ vs)) := by
  have hj := joined hl hr (signatureOf_params (oneInput rank input us))
    (signatureOf_params (oneInput rank input vs))
  have hm := hj.merges
  rw [signatureOf_params, signatureOf_params, signatureOf_params, ← List.map_append] at hm
  rw [hl, hr]
  exact hm

end Arguments

theorem external_eq (h : SideBySide rank input us c) : c.external = oneInput rank input us := by
  induction h with
  | one b f => rfl
  | @both l r us vs d _ _ hm hdl hdr hl hr =>
    have hd := d.merges
    rw [hm, hdl, hdr] at hd
    exact hd.result_unique (merges hl hr)

theorem carries (h : SideBySide rank input us c) {α : Type} [Argument α] {x : α} {ys : List α}
    (hs : signatureOf (x :: ys) = oneInput rank input us) :
    Carries c (x :: ys) [] (ys.map fun y => [x, y]) := by
  induction h generalizing ys with
  | one b f =>
    obtain ⟨hx, hys⟩ := List.cons.inj hs
    obtain ⟨y, rest, rfl, hy, hrest⟩ := signatureOf_eq_cons hys
    obtain rfl := signatureOf_eq_nil hrest
    exact .leaf (Permutation.apply_eq_ok_iff.2 ⟨hs.symm, rfl⟩)
  | @both l r us vs d hl hr hm hdl hdr ihl ihr =>
    obtain ⟨hx, hys⟩ := List.cons.inj hs
    rw [List.map_append] at hys
    obtain ⟨ys, zs, rfl, hy, hz⟩ := List.map_eq_append_iff.1 hys
    have hy : signatureOf (x :: ys) = oneInput rank input us := by
      rw [signatureOf_cons, hx, signatureOf, hy]
      rfl
    have hz : signatureOf (x :: zs) = oneInput rank input vs := by
      rw [signatureOf_cons, hx, signatureOf, hz]
      rfl
    rw [List.map_append]
    have hj := joined hl.external_eq hr.external_eq hy hz
    rw [← hm] at hj
    refine .branch ⟨?_, ?_, hj⟩ (ihl hy) (ihr hz)
    · rw [hdl, hl.external_eq, hy]
    · rw [hdr, hr.external_eq, hz]

theorem intermediates_eq_nil (h : SideBySide rank input us c) : c.intermediates = [] :=
  (h.carries (signatureOf_params _)).signatureOf_inner.symm

theorem edgesFrom_eq_nil (h : SideBySide rank input us c) (first : Nat) :
    c.edgesFrom first = [] := by
  induction h generalizing first with
  | one b f => rfl
  | @both l r us vs d _ _ hm _ _ hl hr =>
    rw [edgesFrom, hl, hr, hm, mergeEdges_eq_nil]
    · rfl
    · intro m hmem
      rcases List.mem_cons.1 hmem with rfl | hmem
      · simp
      · rcases List.mem_append.1 hmem with hmem | hmem <;>
          simp [List.eq_of_mem_replicate hmem]

theorem dependencies_eq_nil (h : SideBySide rank input us c) : c.dependencies = [] := by
  rw [dependencies, h.edgesFrom_eq_nil]
  rfl

end SideBySide

theorem exists_sideBySide {rank : Nat} {input : Ty} {t : Nesting Kernel}
    (ht : ∀ k ∈ t.ops, ∃ b f, k = .map rank input b f) :
    ∃ c, t.fuse horizontal = .ok c ∧ SideBySide rank input (t.ops.map Kernel.result) c := by
  induction t with
  | one k =>
    obtain ⟨b, f, rfl⟩ := ht k (List.mem_singleton_self k)
    exact ⟨_, rfl, .one b f⟩
  | both l r hl hr =>
    obtain ⟨htl, htr⟩ := List.forall_mem_append.1 ht
    obtain ⟨a, ha, hal⟩ := hl htl
    obtain ⟨b, hb, hbr⟩ := hr htr
    obtain ⟨d, hd, hm, hdl, hdr⟩ :=
      Nesting.exists_fuse_both ha hb (SideBySide.merges hal.external_eq hbr.external_eq)
    refine ⟨_, hd, ?_⟩
    rw [Nesting.ops, List.map_append]
    exact .both hal hbr hm hdl hdr

namespace Cluster

section Run

variable {Op : Type} [Executable Op] {c d : Cluster Op}

theorem runLeaves_congr (hl : c.leaves = d.leaves) {args inner : List Actual}
    (ha : c.leafArguments args inner = d.leafArguments args inner) :
    c.runLeaves args inner = d.runLeaves args inner := by
  have hn : c.leafCount = d.leafCount := by rw [← length_leaves, hl, length_leaves]
  rw [runLeaves, runLeaves, ha, hl, schedule_eq_range, schedule_eq_range, hn]

theorem run_of_intermediates_eq_nil (hi : c.intermediates = []) (args : List Actual) (h : Heap) :
    (c.run args []).outcome h = (c.runLeaves args []).outcome h := by
  rw [outcome_run_of_allocate_ok (by rw [hi] ; rfl) (by rw [hi] ; rfl) rfl]
  rfl

end Run

end Cluster

namespace SideBySide

variable {rank : Nat} {input : Ty} {us : List Ty} {c d : Cluster Kernel}

theorem leafArguments_eq (h : SideBySide rank input us c) (hc : c.WellFormed) {α : Type}
    [Argument α] [LawfulArgument α] {x : α} {ys : List α}
    (hs : signatureOf (x :: ys) = c.external) :
    c.leafArguments (x :: ys) [] = .ok (ys.map fun y => [x, y]) := by
  rw [h.external_eq] at hs
  exact (leafArguments_eq_ok_iff hc).2 (h.carries hs)

/-- Whatever the arguments are, the leaves get the same or the same is wrong. -/
theorem leafArguments_congr (hc : SideBySide rank input us c) (hd : SideBySide rank input us d)
    (hcw : c.WellFormed) (hdw : d.WellFormed) (args : List Actual) :
    c.leafArguments args [] = d.leafArguments args [] := by
  by_cases hs : signatureOf args = oneInput rank input us
  · obtain ⟨x, ys, rfl, _, _⟩ := signatureOf_eq_cons hs
    rw [hc.leafArguments_eq hcw (hs.trans hc.external_eq.symm),
      hd.leafArguments_eq hdw (hs.trans hd.external_eq.symm)]
  · have hcheck : ∀ {c : Cluster Kernel}, SideBySide rank input us c →
        c.leafArguments args [] =
          .error (.shape (.wrongArguments (oneInput rank input us) (signatureOf args))) := by
      intro c hc
      rw [leafArguments, hc.external_eq, Signature.check, if_neg fun he => hs he.symm]
      rfl
    rw [hcheck hc, hcheck hd]

theorem run_congr (hc : SideBySide rank input us c) (hd : SideBySide rank input us d)
    (hcw : c.WellFormed) (hdw : d.WellFormed) (hl : c.leaves = d.leaves) (args : List Actual)
    (h : Heap) : (c.run args []).outcome h = (d.run args []).outcome h := by
  rw [run_of_intermediates_eq_nil hc.intermediates_eq_nil,
    run_of_intermediates_eq_nil hd.intermediates_eq_nil,
    runLeaves_congr hl (leafArguments_congr hc hd hcw hdw args)]

theorem run_of_ne_nil (hc : SideBySide rank input us c) (args : List Actual) {shapes : List Shape}
    (hs : shapes ≠ []) (h : Heap) : (c.run args shapes).outcome h =
      (.error (.invariant (.wrongTemporaries c.text 0 shapes.length)), h) := by
  have hne : c.intermediates.length ≠ shapes.length := by
    rw [hc.intermediates_eq_nil]
    exact fun he => hs (List.length_eq_zero_iff.1 he.symm)
  unfold Action.outcome run
  rw [if_pos hne, hc.intermediates_eq_nil]
  rfl

end SideBySide

/-- Kernels that map one array can be fused side by side in any way. The cluster has the one
input and the outputs in the order of the leaves, nothing flows between these and nothing is
kept inside, each leaf gets the input and its own output, and the way of fusing makes no
difference to a run. Only the refusal of temporaries, of which there are none to be passed,
names the cluster as it was fused. -/
theorem run_horizontal_any_nesting {α : Type} [Argument α] [LawfulArgument α] (rank : Nat)
    (input : Ty) (t : Nesting Kernel) (ht : ∀ k ∈ t.ops, ∃ output f, k = .map rank input output f) :
    ∃ c, t.fuse horizontal = .ok c ∧ c.leaves = t.ops ∧
      c.external = oneInput rank input (t.ops.map Kernel.result) ∧ c.dependencies = [] ∧
      c.intermediates = [] ∧
      (∀ (x : α) (ys : List α), signatureOf (x :: ys) = c.external →
        c.leafArguments (x :: ys) [] = .ok (ys.map fun y => [x, y])) ∧
      (∀ u : Nesting Kernel, u.ops = t.ops → ∃ d, u.fuse horizontal = .ok d ∧
        ∀ args h, (d.run args []).outcome h = (c.run args []).outcome h) ∧
      ∀ args shapes h, shapes ≠ [] → (c.run args shapes).outcome h =
        (.error (.invariant (.wrongTemporaries c.text 0 shapes.length)), h) := by
  obtain ⟨c, hc, hcs⟩ := exists_sideBySide ht
  have hcw := Nesting.wellFormed_fuse hc
  refine ⟨c, hc, Nesting.leaves_fuse hc, hcs.external_eq, hcs.dependencies_eq_nil,
    hcs.intermediates_eq_nil, fun x ys => hcs.leafArguments_eq hcw, fun u hu => ?_,
    fun args shapes h hs => hcs.run_of_ne_nil args hs h⟩
  obtain ⟨d, hd, hds⟩ := exists_sideBySide (hu ▸ ht)
  rw [hu] at hds
  refine ⟨d, hd, fun args h => hds.run_congr hcs (Nesting.wellFormed_fuse hd) hcw ?_ args h⟩
  rw [Nesting.leaves_fuse hd, Nesting.leaves_fuse hc, hu]

/-- Three maps of one array, fused from the left and from the right. -/
theorem run_horizontal_any_nesting_three :
    let i : Ty := .int 64
    let v : Ty := .array 1 i
    let map (op : BinaryOp) (n : Int64) : Nesting Kernel :=
      .one (.map 1 i i (.unary i (.binary op (.var ⟨0, i⟩) (.const (.int n)))))
    let t := Nesting.both (.both (map .add 1) (map .mul 3)) (map .sub 2)
    let u := Nesting.both (map .add 1) (.both (map .mul 3) (map .sub 2))
    let args := [Actual.input ⟨0⟩ v, .output ⟨1⟩ v, .output ⟨2⟩ v, .output ⟨0⟩ v]
    let h : Heap := ⟨[some ⟨[1], [.int 4]⟩, some ⟨[1], [.int 0]⟩, some ⟨[1], [.int 0]⟩]⟩
    u.ops = t.ops ∧ ∃ c d, t.fuse horizontal = .ok c ∧ u.fuse horizontal = .ok d ∧
      c.leafArguments args [] = .ok [[.input ⟨0⟩ v, .output ⟨1⟩ v],
        [.input ⟨0⟩ v, .output ⟨2⟩ v], [.input ⟨0⟩ v, .output ⟨0⟩ v]] ∧
      (c.run args []).outcome h = (.ok (),
        ⟨[some ⟨[1], [.int 2]⟩, some ⟨[1], [.int 5]⟩, some ⟨[1], [.int 12]⟩]⟩) ∧
      (d.run args []).outcome h = (c.run args []).outcome h := by
  intro i v map t u args h
  have ht : ∀ k ∈ t.ops, ∃ output f, k = Kernel.map 1 i output f := by
    intro k hk
    have hk : k ∈ [_, _, _] := hk
    simp only [List.mem_cons, List.not_mem_nil, or_false] at hk
    rcases hk with rfl | rfl | rfl <;> exact ⟨_, _, rfl⟩
  obtain ⟨c, hc, _, _, _, _, hleaves, hrun, _⟩ :=
    run_horizontal_any_nesting (α := Actual) 1 i t ht
  obtain ⟨d, hd, hd'⟩ := hrun u rfl
  cases hc
  refine ⟨rfl, _, d, rfl, hd, hleaves _ _ rfl, ?_, hd' args h⟩
  simp only [run, runLeaves, schedule_eq_range]
  rfl

end ArrayFusion
