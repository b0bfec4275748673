import ArrayFusion.Proofs.Kernel.Elementwise
set_option autoImplicit false

namespace ArrayFusion

namespace Heap

variable {h : Heap}

def InRange (h : Heap) (b : BufferId) (i : Nat) : Prop :=
  (∃ v, h.read b i = .ok v) ∧ ∀ v, ∃ g, (write b i v).outcome h = (.ok (), g)

theorem inRange_of_find? {b : BufferId} {x : Buffer} {i : Nat} (hb : h.find? b = some x)
    (hi : i < x.data.length) : h.InRange b i :=
  ⟨⟨x.data[i], by rw [read_of_find? hb, List.getElem?_eq_getElem hi]⟩,
    fun v => ⟨_, outcome_write hb hi v⟩⟩

theorem commonVolume_singleton (h : Heap) (b : BufferId) :
    h.commonVolume [b] = h.buffer b >>= fun x => .ok x.shape.volume := by
  unfold commonVolume
  rw [List.mapM_cons]
  cases h.buffer b <;> rfl

theorem mapM_read {bs : List BufferId} {xs : List Buffer} {i : Nat}
    (hxs : bs.mapM h.buffer = .ok xs) (hi : ∀ x ∈ xs, i < x.data.length) :
    bs.mapM (h.read · i) = .ok (xs.filterMap (·.data[i]?)) := by
  induction bs generalizing xs with
  | nil =>
    cases hxs
    rfl
  | cons b bs ih =>
    obtain ⟨x, ys, hx, hys, rfl⟩ := mapM_cons_eq_ok.1 hxs
    obtain ⟨hix, hi⟩ := List.forall_mem_cons.1 hi
    rw [List.filterMap_cons, List.mapM_cons, read_of_find? (find?_of_buffer hx), ih hys hi,
      List.getElem?_eq_getElem hix]
    rfl

end Heap

namespace Kernel

variable {k : Kernel} {args : List Actual} {h : Heap}

def operands : Kernel → (vs : List Literal) → (i : Nat) → List Literal
  | .map _ _ _ _, vs, _ | .zipWith _ _ _ _ _, vs, _ => vs
  | .generate _ _ _, _, i => [.int (Int64.ofNat i)]

/-- Element `i` of the output, computed from the contents of the inputs and nothing else. -/
def elementAt (k : Kernel) (inputs : List Buffer) (i : Nat) : Except Fault Literal :=
  element k.fn .empty (k.operands (inputs.filterMap (·.data[i]?)) i)

def steps (k : Kernel) (args : List Actual) (n : Nat) : Action Heap Unit :=
  match k, Actual.buffers args with
  | .map _ _ _ f, [input, output] => fill output (mapAt f input) n 0
  | .zipWith _ _ _ _ f, [left, right, output] => fill output (zipAt f left right) n 0
  | .generate _ _ f, [output] => fill output (generateAt f) n 0
  | _, _ => pure ()

structure Accepts (k : Kernel) (args : List Actual) (h : Heap) : Prop where
  signature : k.signature = signatureOf args
  shape : ∃ s, ∀ b ∈ Actual.buffers args, ∃ x, h.find? b = some x ∧ x.shape = s

/-- How a kernel goes about arguments of its signature: there is one output after all inputs,
and the loop over its elements starts once the buffers are known to have a common extent. -/
structure Loop (k : Kernel) (args : List Actual) (output : BufferId)
    (next : Heap → Nat → Except Fault Literal) : Prop where
  writes : Actual.writes args = [output]
  buffers : Actual.buffers args = Actual.reads args ++ [output]
  steps : ∀ n, k.steps args n = fill output next n 0
  next : ∀ h i vs, (Actual.reads args).mapM (h.read · i) = .ok vs →
    next h i = element k.fn .empty (k.operands vs i)
  execute : ∀ h, (∀ y, h.find? output = some y → y.data.length = y.shape.volume) →
    (k.execute args).outcome h =
      (Action.observe (·.commonVolume (Actual.buffers args)) >>= k.steps args).outcome h

open Heap

theorem exists_loop (hs : k.signature = signatureOf args) :
    ∃ output next, k.Loop args output next := by
  have hc := Signature.check_eq_ok_iff.2 hs
  cases takes_of_signature hs with
  | map rank a b f x y =>
    refine ⟨y, mapAt f x, rfl, rfl, fun _ => rfl, fun h i vs hvs => ?_, fun h _ => ?_⟩
    · obtain ⟨v, _, hv, hnil, rfl⟩ := mapM_cons_eq_ok.1 hvs
      cases hnil
      rw [mapAt, hv]
      exact element_closed _ h f [v]
    · unfold execute
      rw [hc]
      rfl
  | zipWith rank a b c f x y z =>
    refine ⟨z, zipAt f x y, rfl, rfl, fun _ => rfl, fun h i vs hvs => ?_, fun h _ => ?_⟩
    · obtain ⟨v, _, hv, hrest, rfl⟩ := mapM_cons_eq_ok.1 hvs
      obtain ⟨w, _, hw, hnil, rfl⟩ := mapM_cons_eq_ok.1 hrest
      cases hnil
      rw [zipAt, hv, hw]
      exact element_closed _ h f [v, w]
    · unfold execute
      rw [hc]
      rfl
  | generate rank a f x =>
    refine ⟨x, generateAt f, rfl, rfl, fun _ => rfl, fun h i vs _ => ?_, fun h hsized => ?_⟩
    · exact element_closed _ h f _
    · unfold execute
      rw [hc]
      change (Action.observe (·.buffer x) >>= fun y => fill x (generateAt f) y.data.length 0).outcome
        h = (Action.observe (·.commonVolume [x]) >>= fun n => fill x (generateAt f) n 0).outcome h
      simp only [Action.outcome_bind, Action.outcome_observe, commonVolume_singleton]
      cases hx : h.buffer x with
      | error fault => rfl
      | ok y =>
        change (fill x (generateAt f) y.data.length 0).outcome h =
          (fill x (generateAt f) y.shape.volume 0).outcome h
        rw [hsized y (find?_of_buffer hx)]

section Loop

variable {output : BufferId} {next : Heap → Nat → Except Fault Literal} {s : Shape}
  {xs : List Buffer} {y : Buffer}

theorem Loop.exists_buffers (hl : k.Loop args output next)
    (hroom : ∀ b ∈ Actual.buffers args, h.Room s b) :
    ∃ xs y, (Actual.reads args).mapM h.buffer = .ok xs ∧ h.find? output = some y ∧
      y.data.length = s.volume ∧ ∀ x ∈ xs, x.data.length = y.data.length := by
  rw [hl.buffers, List.forall_mem_append] at hroom
  obtain ⟨xs, hxs, hlen⟩ := exists_buffers_iff.2 hroom.1
  obtain ⟨y, hy, _, hvol⟩ := hroom.2 output (List.mem_singleton_self _)
  exact ⟨xs, y, hxs, hy, hvol, fun x hx => (hlen x hx).2.trans hvol.symm⟩

theorem Loop.outcome_execute (hl : k.Loop args output next)
    (hroom : ∀ b ∈ Actual.buffers args, h.Room s b) :
    (k.execute args).outcome h = (k.steps args s.volume).outcome h := by
  have hmem : output ∈ Actual.buffers args := by simp [hl.buffers]
  have hvol : h.commonVolume (Actual.buffers args) = .ok s.volume :=
    (commonVolume_eq_ok_iff (List.ne_nil_of_mem hmem)).2
      ⟨s, rfl, fun b hb => (hroom b hb).imp fun _ hx => ⟨hx.1, hx.2.1⟩⟩
  rw [hl.execute h, Action.outcome_bind, Action.outcome_observe, hvol]
  intro y hy
  obtain ⟨z, hz, rfl, hlen⟩ := hroom output hmem
  cases hy.symm.trans hz
  exact hlen

/-- Some steps of the loop have written as many elements as there were steps, or gone as far
as they could. -/
theorem Loop.outcome_steps (hl : k.Loop args output next)
    (hxs : (Actual.reads args).mapM h.buffer = .ok xs) (hy : h.find? output = some y)
    (hlen : ∀ x ∈ xs, x.data.length = y.data.length) {i : Nat} (hi : i ≤ y.data.length) :
    ∃ ws r, (k.steps args i).outcome h = (r, h.put output (y.overwrite ws)) ∧
      Elements (k.elementAt xs) i ws r := by
  -- An input that is the output has been overwritten, but only before the place that is read.
  have hnext : ∀ done : List Literal, done.length < y.data.length →
      next (h.put output (y.overwrite done)) done.length = k.elementAt xs done.length := by
    intro done hd
    refine hl.next _ _ _ ?_
    simp only [read_overwrite hy (Nat.le_of_lt hd)]
    exact mapM_read hxs fun x hx => by rwa [hlen x hx]
  have hfill := @outcome_fill (k.elementAt xs) output h y hy next hnext i [] (by simpa using hi)
    (computed_nil _)
  rw [Buffer.overwrite_nil, put_eq_self hy, List.length_nil, Nat.zero_add] at hfill
  rwa [hl.steps]

theorem Loop.inRange (hl : k.Loop args output next)
    (hroom : ∀ b ∈ Actual.buffers args, h.Room s b) {i : Nat} (hi : i < s.volume) {g : Heap}
    (hrun : (k.steps args i).outcome h = (.ok (), g)) :
    ∀ b ∈ Actual.buffers args, g.InRange b i := by
  obtain ⟨xs, y, hxs, hy, hvol, hlen⟩ := hl.exists_buffers hroom
  obtain ⟨ws, r, hsteps, hws⟩ := hl.outcome_steps hxs hy hlen (hvol ▸ Nat.le_of_lt hi)
  rw [hrun] at hsteps
  cases hsteps
  cases hws with
  | all _ hn =>
    intro b hb
    by_cases hbo : b = output
    · subst hbo
      refine inRange_of_find? (find?_put_self hy _) ?_
      rw [Buffer.length_overwrite (by omega)]
      omega
    · obtain ⟨x, hx, _, hxlen⟩ := hroom b hb
      exact inRange_of_find? ((find?_put_of_ne hbo _).trans hx) (hxlen ▸ hi)

end Loop

theorem length_eq_of_map_ok {f : Literal → Except Fault Literal} {vs us : List Literal}
    (h : vs.map f = us.map .ok) : us.length = vs.length := by
  simpa using (congrArg List.length h).symm

theorem outcome_execute_map_of_ok {rank : Nat} {a b : Ty} {f : Fn} {input output : BufferId}
    {s : Shape} {vs us : List Literal} (hx : h.find? input = some ⟨s, vs⟩)
    (hvs : vs.length = s.volume) (hroom : h.Room s output)
    (hus : vs.map (fun v => element f h [v]) = us.map .ok) :
    ((Kernel.map rank a b f).execute [.input input (.array rank a),
      .output output (.array rank b)]).outcome h = (.ok (), h.put output ⟨s, us⟩) := by
  obtain ⟨o, next, hl⟩ := @exists_loop (.map rank a b f) [.input input (.array rank a),
    .output output (.array rank b)] rfl
  have hrooms := List.forall_mem_cons.2 ⟨⟨_, hx, rfl, hvs⟩, List.forall_mem_singleton.2 hroom⟩
  obtain ⟨xs, y, hxs, hy, hvol, hlen⟩ := hl.exists_buffers hrooms
  obtain ⟨ws, r, hsteps, hws⟩ := hl.outcome_steps hxs hy hlen (Nat.le_refl _)
  cases hl.writes
  obtain ⟨x, _, hx', hnil, rfl⟩ := mapM_cons_eq_ok.1 hxs
  cases hnil
  cases hx.symm.trans (find?_of_buffer hx')
  obtain ⟨z, hz, rfl, _⟩ := hroom
  cases hy.symm.trans hz
  have hcomputed : Computed (elementAt (.map rank a b f) [⟨y.shape, vs⟩]) us := by
    intro i w hi
    have he := congrArg (·[i]?) hus
    simp only [List.getElem?_map, hi, Option.map_some, Option.map_eq_some_iff] at he
    obtain ⟨v, hv, he⟩ := he
    simp only [elementAt, List.filterMap_cons, List.filterMap_nil, hv]
    exact (element_closed h .empty f [v]).trans he
  have hlen : us.length = y.data.length := (length_eq_of_map_ok hus).trans (hvs.trans hvol.symm)
  obtain ⟨rfl, rfl⟩ := hws.unique (.all hcomputed hlen)
  rw [hl.outcome_execute hrooms, ← hvol, hsteps, Buffer.overwrite_of_length_eq hlen]

theorem outcome_execute_of_not_accepts (hw : h.WellSized) (hn : ¬k.Accepts args h) :
    ∃ fault, (k.execute args).outcome h = (.error fault, h) := by
  by_cases hs : k.signature = signatureOf args
  · -- Nothing is written before the extents have been compared.
    obtain ⟨output, next, hl⟩ := exists_loop hs
    rw [hl.execute h fun y hy => hw output y hy, Action.outcome_bind, Action.outcome_observe]
    cases hv : h.commonVolume (Actual.buffers args) with
    | error fault => exact ⟨fault, rfl⟩
    | ok n =>
      have hne : Actual.buffers args ≠ [] := by simp [hl.buffers]
      obtain ⟨s, _, hshape⟩ := (commonVolume_eq_ok_iff hne).1 hv
      exact (hn ⟨hs, s, hshape⟩).elim
  · cases hc : k.signature.check args with
    | ok u => exact (hs (Signature.check_eq_ok_iff.1 hc)).elim
    | error fault =>
      unfold execute
      rw [hc]
      exact ⟨fault, rfl⟩

/-- A kernel refuses arguments that it does not accept and leaves the heap alone. Otherwise it
leaves in its output, and nowhere else, the elements that come of what its inputs held before,
all of them or those before the first one that faults. That may be so with the output among
the inputs. No step of it reads or writes past the end of a buffer. -/
theorem execute_elementwise (k : Kernel) (args : List Actual) (h : Heap) (hw : h.WellSized) :
    (¬k.Accepts args h → ∃ fault, (k.execute args).outcome h = (.error fault, h)) ∧
    (k.Accepts args h → ∃ xs output y, (Actual.reads args).mapM h.buffer = .ok xs ∧
      Actual.writes args = [output] ∧ h.find? output = some y ∧
      (∀ x ∈ xs, x.data.length = y.data.length) ∧
      (∃ ws r, (k.execute args).outcome h = (r, h.put output (y.overwrite ws)) ∧
        Elements (k.elementAt xs) y.data.length ws r) ∧
      (k.execute args).outcome h = (k.steps args y.data.length).outcome h ∧
      ∀ i < y.data.length, ∀ g, (k.steps args i).outcome h = (.ok (), g) →
        ∀ b ∈ Actual.buffers args, g.InRange b i) := by
  refine ⟨outcome_execute_of_not_accepts hw, fun ⟨hs, s, hshape⟩ => ?_⟩
  obtain ⟨output, next, hl⟩ := exists_loop hs
  have hroom : ∀ b ∈ Actual.buffers args, h.Room s b := by
    intro b hb
    obtain ⟨x, hx, rfl⟩ := hshape b hb
    exact ⟨x, hx, rfl, hw b x hx⟩
  obtain ⟨xs, y, hxs, hy, hvol, hlen⟩ := hl.exists_buffers hroom
  have hexec : (k.execute args).outcome h = (k.steps args y.data.length).outcome h := by
    rw [hl.outcome_execute hroom, hvol]
  refine ⟨xs, output, y, hxs, hl.writes, hy, hlen, ?_, hexec, fun i hi g hrun => ?_⟩
  · rw [hexec]
    exact hl.outcome_steps hxs hy hlen (Nat.le_refl _)
  · exact hl.inRange hroom (hvol ▸ hi) hrun

/-- Elements divided by themselves, in place: the second one is zero. -/
theorem execute_elementwise_quotients :
    let i : Ty := .int 64
    let v : Ty := .array 1 i
    let quotient : Kernel :=
      .zipWith 1 i i i (.binary i i (.binary .div (.var ⟨1, i⟩) (.var ⟨0, i⟩)))
    let args := [Actual.input ⟨0⟩ v, .input ⟨0⟩ v, .output ⟨0⟩ v]
    let x : Buffer := ⟨[3], [.int 6, .int 0, .int 5]⟩
    let h : Heap := ⟨[some x]⟩
    let fault : Fault := .invariant .divisionByZero
    h.WellSized ∧ quotient.Accepts args h ∧
      Elements (quotient.elementAt [x, x]) 3 [.int 1] (.error fault) ∧
      (quotient.execute args).outcome h =
        (.error fault, ⟨[some ⟨[3], [.int 1, .int 0, .int 5]⟩]⟩) ∧
      ∃ refusal, (quotient.execute []).outcome h = (.error refusal, h) := by
  intro i v quotient args x h fault
  have hsized : h.WellSized := by
    rintro ⟨_ | n⟩ y hy
    · cases hy
      rfl
    · cases hy
  have haccepts : quotient.Accepts args h := by
    refine ⟨rfl, [3], fun b hb => ⟨x, ?_, rfl⟩⟩
    obtain rfl : b = ⟨0⟩ := by simpa [Actual.buffers, Actual.buffer?, args] using hb
    rfl
  have hquotients : Elements (quotient.elementAt [x, x]) 3 [.int 1] (.error fault) :=
    .before (@Computed.push _ [] (.int 1) (computed_nil _) rfl) (by decide) rfl
  obtain ⟨xs, output, y, hxs, hwrites, hy, _, ⟨ws, r, hrun, hws⟩, _⟩ :=
    (execute_elementwise quotient args h hsized).2 haccepts
  cases hwrites
  cases hxs
  cases hy
  obtain ⟨rfl, rfl⟩ := hws.unique hquotients
  have hrefused : ¬quotient.Accepts [] h := by
    intro ha
    cases ha.signature
  exact ⟨hsized, haccepts, hquotients, hrun, (execute_elementwise quotient [] h hsized).1 hrefused⟩

end Kernel

end ArrayFusion
