import ArrayFusion.Proofs.Cluster.Nesting
import ArrayFusion.Proofs.Cluster.Refinement
import ArrayFusion.Proofs.Cluster.Release
import ArrayFusion.Proofs.Kernel.Contents
set_option autoImplicit false

namespace ArrayFusion

open Cluster Actual

def vertical {Op : Type} (_ _ : Cluster Op) : List MergeMode :=
  [.leftOnly, .consumed, .rightOnlyOut]

def throughput (rank : Nat) (a b : Ty) : Signature :=
  [⟨.input, .array rank a⟩, ⟨.output, .array rank b⟩]

theorem merges_throughput (rank : Nat) (a b c : Ty) :
    Merges [.leftOnly, .consumed, .rightOnlyOut] (throughput rank a b) (throughput rank b c)
      (throughput rank a c) :=
  .leftOnly _ (.consumed _ (.rightOnlyOut _ .nil))

theorem joined_vertical {α : Type} [Argument α] {l r m c : List α}
    (h : Joined [.leftOnly, .consumed, .rightOnlyOut] l r m c) :
    ∃ x z y t, l = [x, z] ∧ r = [Argument.toInput z, y] ∧ m = [x, y] ∧ c = [z] ∧
      Argument.param z = ⟨.output, t⟩ := by
  cases h with
  | leftOnly h =>
    cases h with
    | consumed hz h =>
      cases h with
      | rightOnlyOut hy h =>
        cases h
        exact ⟨_, _, _, _, rfl, rfl, rfl, rfl, hz⟩

section Chains

/-- Maps in a row, each of the element type that the one before it gives. The list of types
is of those in between. -/
inductive Chain (rank : Nat) : Ty → List Ty → Ty → List Kernel → Prop where
  | one (a b : Ty) (f : Fn) : Chain rank a [] b [.map rank a b f]
  | cons (a : Ty) {b c : Ty} {between : List Ty} (f : Fn) {ks : List Kernel} :
      Chain rank b between c ks → Chain rank a (b :: between) c (.map rank a b f :: ks)

variable {rank : Nat} {a c : Ty} {between : List Ty} {ks ls : List Kernel}

theorem Chain.length_eq (h : Chain rank a between c ks) : ks.length = between.length + 1 := by
  induction h with
  | one a b f => rfl
  | cons a f _ ih => rw [List.length_cons, List.length_cons, ih]

theorem Chain.of_append (h : Chain rank a between c (ks ++ ls)) (hk : ks ≠ []) (hl : ls ≠ []) :
    ∃ before b after, between = before ++ b :: after ∧ Chain rank a before b ks ∧
      Chain rank b after c ls := by
  induction ks generalizing a between with
  | nil => exact (hk rfl).elim
  | cons k ks ih =>
    cases ks with
    | nil =>
      cases h with
      | one => exact (hl rfl).elim
      | cons a f h => exact ⟨[], _, _, rfl, .one _ _ _, h⟩
    | cons k' ks =>
      cases h with
      | cons a f h =>
        obtain ⟨before, b, after, rfl, hks, hls⟩ := ih h (List.cons_ne_nil _ _)
        exact ⟨_ :: before, b, after, rfl, .cons a f hks, hls⟩

end Chains

inductive Pipeline (rank : Nat) : Ty → List Ty → Ty → Cluster Kernel → Prop where
  | one (a b : Ty) (f : Fn) : Pipeline rank a [] b (.single (.map rank a b f))
  | both {a b c : Ty} {before after : List Ty} {l r : Cluster Kernel} {d : Merge} :
      Pipeline rank a before b l → Pipeline rank b after c r → d.modes = vertical l r →
      d.left = l.external → d.right = r.external →
      Pipeline rank a (before ++ b :: after) c (.branch l r d)

namespace Pipeline

variable {rank : Nat} {a b : Ty} {between : List Ty} {c : Cluster Kernel}

theorem external_eq (h : Pipeline rank a between b c) : c.external = throughput rank a b := by
  induction h with
  | one a b f => rfl
  | @both a b c _ _ l r d _ _ hm hdl hdr hl hr =>
    have hd := d.merges
    rw [hm, hdl, hdr, hl, hr] at hd
    exact hd.result_unique (merges_throughput rank a b c)

/-- The arrays in between stay inside, in an order that depends on the nesting. -/
theorem intermediates_perm (h : Pipeline rank a between b c) :
    c.intermediates.Perm (between.map fun t => ⟨.output, .array rank t⟩) := by
  induction h with
  | one a b f => exact .nil
  | @both a b c before after l r d hpl _ hm hdl _ hl hr =>
    have hd : d.consumed = [⟨.output, .array rank b⟩] := by
      rw [Merge.consumed, hm, hdl, hpl.external_eq]
      rfl
    rw [intermediates, hd, List.map_append, List.map_cons]
    exact ((hl.append hr).cons _).trans List.perm_middle.symm

theorem leafCount_eq (h : Pipeline rank a between b c) : c.leafCount = between.length + 1 := by
  induction h with
  | one a b f => rfl
  | both _ _ _ _ _ hl hr =>
    rw [leafCount, hl, hr, List.length_append, List.length_cons]
    omega

theorem users_eq (h : Pipeline rank a between b c) (first : Nat) :
    c.users first = [[first], [first + between.length]] := by
  induction h generalizing first with
  | one a b f => rfl
  | @both a b c before after l r d hpl hpr hm _ _ hl hr =>
    rw [users, hm, hl, hr, hpl.leafCount_eq, List.length_append, List.length_cons]
    simp only [vertical, mergeUses, List.headD_cons, List.tail_cons]
    rw [show first + (before.length + 1) + after.length =
      first + (before.length + (after.length + 1)) by omega]

theorem mem_edgesFrom_iff (h : Pipeline rank a between b c) (first w k : Nat) :
    (w, k) ∈ c.edgesFrom first ↔ k = w + 1 ∧ first ≤ w ∧ k ≤ first + between.length := by
  induction h generalizing first with
  | one a b f =>
    simp only [single, edgesFrom, List.not_mem_nil, List.length_nil, false_iff]
    omega
  | @both a b c before after l r d hpl hpr hm _ _ hl hr =>
    rw [edgesFrom, hm, hpl.users_eq, hpr.users_eq, hpl.leafCount_eq]
    simp only [vertical, mergeEdges, List.mem_append, hl, hr, List.headD_cons, List.tail_cons,
      List.flatMap_cons, List.map_cons, List.map_nil, List.flatMap_nil, List.append_nil,
      List.mem_singleton, Prod.mk.injEq, List.length_append, List.length_cons]
    omega

theorem mem_dependencies (h : Pipeline rank a between b c) (w k : Nat) :
    (w, k) ∈ c.dependencies ↔ k = w + 1 ∧ k < between.length + 1 := by
  rw [dependencies, List.mem_eraseDups, h.mem_edgesFrom_iff]
  omega

end Pipeline

theorem exists_pipeline {rank : Nat} {a b : Ty} {between : List Ty} {t : Nesting Kernel}
    (ht : Chain rank a between b t.ops) :
    ∃ c, t.fuse vertical = .ok c ∧ Pipeline rank a between b c := by
  induction t generalizing a b between with
  | one k =>
    cases ht with
    | one a b f => exact ⟨_, rfl, .one a b f⟩
    | cons a f h => cases h
  | both l r hl hr =>
    obtain ⟨before, u, after, rfl, hchainl, hchainr⟩ := ht.of_append l.ops_ne_nil r.ops_ne_nil
    obtain ⟨cl, hcl, hpl⟩ := hl hchainl
    obtain ⟨cr, hcr, hpr⟩ := hr hchainr
    have hmerges := merges_throughput rank a u b
    rw [← hpl.external_eq, ← hpr.external_eq] at hmerges
    obtain ⟨d, hd, hm, hdl, hdr⟩ := Nesting.exists_fuse_both hcl hcr hmerges
    exact ⟨_, hd, .both hpl hpr hm hdl hdr⟩

section Elements

def inTurn (ks : List Kernel) (h : Heap) (v : Literal) : Except Fault Literal :=
  ks.foldlM (fun v k => Kernel.element k.fn h [v]) v

theorem inTurn_append (ks ls : List Kernel) (h : Heap) :
    inTurn (ks ++ ls) h = fun v => inTurn ks h v >>= inTurn ls h :=
  funext fun _ => List.foldlM_append

theorem inTurn_singleton (k : Kernel) (h : Heap) :
    inTurn [k] h = fun v => Kernel.element k.fn h [v] :=
  funext fun v => bind_pure (Kernel.element k.fn h [v])

theorem inTurn_closed (ks : List Kernel) (h g : Heap) : inTurn ks g = inTurn ks h := by
  funext v
  simp only [inTurn, Kernel.element_closed h g]

theorem exists_between {f g : Literal → Except Fault Literal} {vs ws : List Literal}
    (h : vs.map (fun v => f v >>= g) = ws.map .ok) :
    ∃ us : List Literal, vs.map f = us.map .ok ∧ us.map g = ws.map .ok := by
  induction vs generalizing ws with
  | nil => exact ⟨[], rfl, h⟩
  | cons v vs ih =>
    obtain ⟨w, ws, rfl, hw, hws⟩ := List.map_eq_cons_iff.1 h.symm
    obtain ⟨u, hu, hg⟩ := bind_eq_ok.1 hw.symm
    obtain ⟨us, hf, hgs⟩ := ih hws.symm
    exact ⟨u :: us, by rw [List.map_cons, hu, hf, List.map_cons],
      by rw [List.map_cons, hg, hgs, List.map_cons]⟩

end Elements

namespace Pipeline

variable {rank : Nat} {a b : Ty} {between : List Ty} {c : Cluster Kernel}

theorem exists_carries_both {u : Ty} {before : List Ty} {l r : Cluster Kernel} {d : Merge}
    (hl : Pipeline rank a before u l) (hm : d.modes = vertical l r) (hdl : d.left = l.external)
    {x y : BufferId} {inner : List Actual} {lists : List (List Actual)}
    (h : Carries (.branch l r d) [.input x (.array rank a), .output y (.array rank b)] inner
      lists) :
    ∃ z il ir ll rl, inner = .output z (.array rank u) :: (il ++ ir) ∧ lists = ll ++ rl ∧
      Carries l [.input x (.array rank a), .output z (.array rank u)] il ll ∧
      Carries r [.input z (.array rank u), .output y (.array rank b)] ir rl := by
  cases h with
  | branch hd hcl hcr =>
    obtain ⟨hsl, _, hj⟩ := hd
    rw [hm] at hj
    obtain ⟨x', z, y', t, rfl, rfl, hargs, rfl, hz⟩ := joined_vertical hj
    cases hargs
    rw [hdl, hl.external_eq] at hsl
    obtain ⟨z, rfl⟩ := output_of_param (List.cons.inj (List.cons.inj hsl).2).1
    exact ⟨z, _, _, _, _, rfl, rfl, hcl, hcr⟩

/-- Whatever the names of the arrays are, each element of the first one goes through all
the functions into its place in the last one. -/
theorem outcome_runEach (hc : Pipeline rank a between b c) {x y : BufferId} {inner : List Actual}
    {lists : List (List Actual)}
    (hcar : Carries c [.input x (.array rank a), .output y (.array rank b)] inner lists)
    {h : Heap} {s : Shape} {vs ws : List Literal} (hx : h.find? x = some ⟨s, vs⟩)
    (hvs : vs.length = s.volume) (hy : h.Room s y) (hroom : ∀ z ∈ buffers inner, h.Room s z)
    (hws : vs.map (inTurn c.leaves h) = ws.map .ok) :
    ∃ g, (runEach c.leaves lists).outcome h = (.ok (), g) ∧ g.find? y = some ⟨s, ws⟩ ∧
      ∀ z, h.Room s z → g.Room s z := by
  induction hc generalizing x y inner lists h vs ws with
  | one a b f =>
    cases hcar with
    | @leaf _ _ _ natural ha =>
      obtain ⟨_, hnatural⟩ := Permutation.apply_eq_ok_iff.1 ha
      obtain rfl : natural = [.input x (.array rank a), .output y (.array rank b)] := hnatural
      rw [show leaves _ = [Kernel.map rank a b f] from rfl, inTurn_singleton] at hws
      have hrun := @Kernel.outcome_execute_map_of_ok h rank a b f x y s vs _ hx hvs hy hws
      refine ⟨_, ?_, hy.find?_put _, fun z hz => hz.put hy ?_⟩
      · change (Kernel.execute _ _ >>= fun _ => runEach [] []).outcome h = _
        rw [Action.outcome_bind, hrun]
        rfl
      · exact (Kernel.length_eq_of_map_ok hws).trans hvs
  | @both a u b before after l r d hl hr hm hdl hdr ihl ihr =>
    obtain ⟨z, il, ir, ll, rl, rfl, rfl, hcl, hcr⟩ := hl.exists_carries_both hm hdl hcar
    obtain ⟨hz, hinner⟩ := List.forall_mem_cons.1 hroom
    have hinner : ∀ i ∈ buffers (il ++ ir), h.Room s i := hinner
    rw [buffers_append] at hinner
    obtain ⟨hil, hir⟩ := List.forall_mem_append.1 hinner
    rw [leaves] at hws ⊢
    rw [inTurn_append] at hws
    obtain ⟨us, hus, hws⟩ := exists_between hws
    -- No two names have to differ: what the left part wrote is read before it is overwritten.
    obtain ⟨g, hgrun, hgz, hgroom⟩ := ihl hcl hx hvs hz hil hus
    have hlen : us.length = s.volume := (Kernel.length_eq_of_map_ok hus).trans hvs
    rw [inTurn_closed _ g] at hws
    obtain ⟨k, hkrun, hky, hkroom⟩ := ihr hcr hgz hlen (hgroom y hy)
      (fun i hi => hgroom i (hir i hi)) hws
    refine ⟨k, ?_, hky, fun i hi => hkroom i (hgroom i hi)⟩
    rw [runEach_append (hcl.length_lists.trans l.length_leaves.symm), Action.outcome_bind, hgrun]
    exact hkrun

end Pipeline

theorem exists_allocate_rooms {ps : Signature} (hp : ∀ p ∈ ps, p.storable ∧ p.role = .output)
    (s : Shape) (h : Heap) :
    ∃ temporaries g, allocate (ps.zip (List.replicate ps.length s)) h = .ok temporaries g ∧
      signatureOf temporaries = ps ∧
      (∀ z ∈ buffers temporaries, h.next ≤ z.number ∧ g.Room s z) ∧
      ∀ z x, h.find? z = some x → g.find? z = some x := by
  obtain ⟨temporaries, fresh, ha, hb, hsig, hshapes, hsizes⟩ :=
    exists_allocate_eq_ok (List.length_replicate (a := s)).symm (fun p hm => (hp p hm).1) h
  refine ⟨temporaries, _, ha, ?_, fun z hz => ?_, fun z x hz => Heap.find?_grow_of_find? hz fresh⟩
  · rw [hsig]
    refine (List.map_congr_left fun p hm => ?_).trans (List.map_id ps)
    rw [← (hp p hm).2]
    rfl
  · rw [hb] at hz
    obtain ⟨n, hn, rfl⟩ := List.mem_map.1 hz
    obtain ⟨hle, hlt⟩ := List.mem_range'_1.1 hn
    obtain ⟨i, rfl⟩ := Nat.exists_eq_add_of_le hle
    have hi : i < fresh.length := Nat.lt_of_add_lt_add_left hlt
    have hmem := List.getElem_mem hi
    have hshape : fresh[i].shape = s :=
      List.eq_of_mem_replicate (hshapes ▸ List.mem_map_of_mem hmem)
    exact ⟨hle, fresh[i], (h.find?_grow_next_add fresh i).trans (List.getElem?_eq_getElem hi),
      hshape, (hsizes _ hmem).trans (congrArg Shape.volume hshape)⟩

namespace Pipeline

variable {rank : Nat} {a b : Ty} {between : List Ty} {c : Cluster Kernel}

theorem storable_of_mem_intermediates (hc : Pipeline rank a between b c)
    (hs : ∀ u ∈ between, u.isScalar) {p : Param} (hp : p ∈ c.intermediates) :
    p.storable ∧ p.role = .output := by
  obtain ⟨u, hu, rfl⟩ := List.mem_map.1 (hc.intermediates_perm.mem_iff.1 hp)
  exact ⟨hs u hu, rfl⟩

theorem outcome_run (hc : Pipeline rank a between b c) (hw : c.WellFormed)
    (hs : ∀ u ∈ between, u.isScalar) {x y : BufferId} {h : Heap} {s : Shape}
    {vs ws : List Literal} (hx : h.find? x = some ⟨s, vs⟩) (hvs : vs.length = s.volume)
    (hy : h.Room s y) (hws : vs.map (inTurn c.leaves h) = ws.map .ok) :
    ∃ g, (c.run [.input x (.array rank a), .output y (.array rank b)]
        (List.replicate c.intermediates.length s)).outcome h = (.ok (), g) ∧
      g.find? y = some ⟨s, ws⟩ := by
  obtain ⟨temporaries, g, ha, hsig, hnew, hold⟩ := exists_allocate_rooms
    (fun p hp => hc.storable_of_mem_intermediates hs hp) s h
  have hargs : signatureOf [Actual.input x (.array rank a), .output y (.array rank b)] =
      c.external := hc.external_eq.symm
  obtain ⟨lists, hcar⟩ := exists_carries hw hargs hsig
  have hroom : g.Room s y := hy.imp fun y' hy' => ⟨hold y y' hy'.1, hy'.2⟩
  rw [inTurn_closed _ g] at hws
  obtain ⟨k, hrun, hky, _⟩ :=
    hc.outcome_runEach hcar (hold _ _ hx) hvs hroom (fun z hz => (hnew z hz).2) hws
  rw [← runLeaves_eq hw hcar] at hrun
  refine ⟨_, outcome_run_of_allocate_ok List.length_replicate.symm ha hrun, ?_⟩
  have hnot : y ∉ buffers temporaries := by
    intro hm
    obtain ⟨y', hy', _⟩ := hy
    exact Nat.not_lt.2 (hnew y hm).1 (Heap.number_lt_next hy')
  rw [find?_freeAll, if_neg hnot]
  exact hky

end Pipeline

/-- Maps that follow one another can be fused in any way. The cluster reads the first array
and writes the last one, keeps one fewer inside than there are maps, and each leaf feeds the
next one alone. If those inside are of scalars, and the functions one after the other give a
result for every element of the input, a run succeeds and the output holds these results. It
may be the input itself. -/
theorem run_vertical_any_nesting {rank : Nat} {a b : Ty} {between : List Ty}
    (t : Nesting Kernel) (ht : Chain rank a between b t.ops) :
    ∃ c, t.fuse vertical = .ok c ∧ c.leaves = t.ops ∧ c.external = throughput rank a b ∧
      c.intermediates.length + 1 = t.ops.length ∧
      (∀ w k, (w, k) ∈ c.dependencies ↔ k = w + 1 ∧ k < t.ops.length) ∧
      ((∀ u ∈ between, u.isScalar) → ∀ (h : Heap) (x y : BufferId) (s : Shape)
        (vs old ws : List Literal), h.WellSized → h.find? x = some ⟨s, vs⟩ →
        h.find? y = some ⟨s, old⟩ → vs.map (inTurn t.ops h) = ws.map .ok →
        ∃ g, (c.run [.input x (.array rank a), .output y (.array rank b)]
            (List.replicate c.intermediates.length s)).outcome h = (.ok (), g) ∧
          g.find? y = some ⟨s, ws⟩) := by
  obtain ⟨c, hfuse, hc⟩ := exists_pipeline ht
  have hleaves := Nesting.leaves_fuse hfuse
  refine ⟨c, hfuse, hleaves, hc.external_eq, ?_, fun w k => ?_, ?_⟩
  · rw [hc.intermediates_perm.length_eq, List.length_map, ht.length_eq]
  · rw [hc.mem_dependencies, ht.length_eq]
  · intro hs h x y s vs old ws hsized hx hy hws
    exact hc.outcome_run (Nesting.wellFormed_fuse hfuse) hs hx (hsized _ _ hx)
      ⟨_, hy, rfl, hsized _ _ hy⟩ (hleaves ▸ hws)

/-- Integers to their successors, to whether these are small, and to one or zero, in place
and fused from the left and from the right. -/
theorem run_vertical_any_nesting_three :
    let i : Ty := .int 64
    let v : Ty := .array 1 i
    let successor : Nesting Kernel :=
      .one (.map 1 i i (.unary i (.binary .add (.var ⟨0, i⟩) (.const (.int 1)))))
    let small : Nesting Kernel :=
      .one (.map 1 i .bool (.unary i (.binary .lt (.var ⟨0, i⟩) (.const (.int 5)))))
    let count : Nesting Kernel :=
      .one (.map 1 .bool i (.unary .bool (.cond (.var ⟨0, .bool⟩) (.const (.int 1))
        (.const (.int 0)))))
    let t := Nesting.both (.both successor small) count
    let u := Nesting.both successor (.both small count)
    let args := [Actual.input ⟨0⟩ v, .output ⟨0⟩ v]
    let h : Heap := ⟨[some ⟨[2], [.int 3, .int 9]⟩]⟩
    let counts : Buffer := ⟨[2], [.int 1, .int 0]⟩
    Chain 1 i [i, .bool] i t.ops ∧ u.ops = t.ops ∧ h.WellSized ∧
      (∃ c g, t.fuse vertical = .ok c ∧ (c.run args [[2], [2]]).outcome h = (.ok (), g) ∧
        g.find? ⟨0⟩ = some counts) ∧
      ∃ c g, u.fuse vertical = .ok c ∧ (c.run args [[2], [2]]).outcome h = (.ok (), g) ∧
        g.find? ⟨0⟩ = some counts := by
  intro i v successor small count t u args h counts
  have ht : Chain 1 i [i, .bool] i t.ops := .cons _ _ (.cons _ _ (.one _ _ _))
  have hsized : h.WellSized := by
    rintro ⟨n⟩ z hz
    rcases n with _ | n
    · cases hz
      rfl
    · cases hz
  have hscalar : ∀ e ∈ [i, Ty.bool], e.isScalar := by decide
  have hcounts : [Literal.int 3, .int 9].map (inTurn t.ops h) = [Literal.int 1, .int 0].map .ok :=
    rfl
  obtain ⟨c, hc, _, _, _, _, hrun⟩ := run_vertical_any_nesting t ht
  obtain ⟨d, hd, _, _, _, _, hrun'⟩ := run_vertical_any_nesting u ht
  cases hc
  cases hd
  obtain ⟨g, hg, hfind⟩ := hrun hscalar h ⟨0⟩ ⟨0⟩ [2] _ _ _ hsized rfl rfl hcounts
  obtain ⟨g', hg', hfind'⟩ := hrun' hscalar h ⟨0⟩ ⟨0⟩ [2] _ _ _ hsized rfl rfl hcounts
  exact ⟨ht, rfl, hsized, ⟨_, g, rfl, hg, hfind⟩, _, g', rfl, hg', hfind'⟩

end ArrayFusion
