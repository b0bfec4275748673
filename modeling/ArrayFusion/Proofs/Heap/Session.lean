import ArrayFusion.Cluster.Run
import ArrayFusion.Kernel.Execute
import ArrayFusion.Proofs.Heap.History
import ArrayFusion.Proofs.Program.Environment
set_option autoImplicit false

/-!
Sessions on a heap: direct calls and runs of kernels, clusters and programs, in any order.
Everything that a session does to the heap goes through the calls, so every session has a
history and the heap is as that says.
-/

namespace ArrayFusion

open Heap

namespace Kernel

theorem hasHistory_fill (output : BufferId) (elementAt : Heap → Nat → Except Fault Literal)
    (todo i : Nat) : HasHistory (fill output elementAt todo i) := by
  induction todo generalizing i with
  | zero => exact hasHistory_pure ()
  | succ todo ih =>
    exact (hasHistory_observe _).bind fun x =>
      (hasHistory_write output i x).bind fun _ => ih (i + 1)

theorem hasHistory_execute (k : Kernel) (args : List Actual) : HasHistory (k.execute args) := by
  refine (hasHistory_ofExcept _).bind fun _ => ?_
  split
  · exact (hasHistory_observe _).bind fun n => hasHistory_fill _ _ n 0
  · exact (hasHistory_observe _).bind fun n => hasHistory_fill _ _ n 0
  · exact (hasHistory_observe _).bind fun b => hasHistory_fill _ _ b.data.length 0
  · exact hasHistory_throw _

end Kernel

section Runs

variable {Op : Type} [Executable Op]

namespace Cluster

theorem hasHistory_allocate (temporaries : List (Param × Shape)) :
    HasHistory (allocate temporaries) := by
  induction temporaries with
  | nil => exact hasHistory_pure []
  | cons t rest ih =>
    unfold allocate
    split
    · exact hasHistory_throw _
    · exact (hasHistory_alloc _ _).bind fun b => ih.bind fun others => hasHistory_pure _

theorem hasHistory_runOrder (hop : ∀ (op : Op) args, HasHistory (Executable.execute op args))
    (leaves : List Op) (lists : List (List Actual)) (order : List Nat) :
    HasHistory (runOrder leaves lists order) := by
  induction order with
  | nil => exact hasHistory_pure ()
  | cons i is ih =>
    rw [runOrder]
    split
    · exact (hop _ _).bind fun _ => ih
    · exact ih

theorem hasHistory_run (hop : ∀ (op : Op) args, HasHistory (Executable.execute op args))
    (c : Cluster Op) (args : List Actual) (shapes : List Shape) :
    HasHistory (c.run args shapes) := by
  unfold run
  split
  · exact hasHistory_throw _
  · refine (hasHistory_allocate _).bind fun temporaries => HasHistory.foldl_free ?_ _
    exact (hasHistory_ofExcept _).bind fun lists => hasHistory_runOrder hop _ lists _

end Cluster

namespace Program

theorem hasHistory_runIn (hop : ∀ (op : Op) args, HasHistory (Executable.execute op args))
    (t : Program Op) (env : Stack) : HasHistory (t.runIn env) := by
  induction t generalizing env with
  | exec op args =>
    exact (hasHistory_ofExcept _).bind fun actuals =>
      (hop op actuals).bind fun _ => hasHistory_pure _
  | ret t => exact hasHistory_ofExcept _
  | compute e => exact hasHistory_observe _
  | alloc elem shape =>
    exact (hasHistory_ofExcept _).bind fun extents =>
      (hasHistory_alloc elem extents).bind fun b => hasHistory_pure _
  | letIn p bound body hbound hbody =>
    exact (hbound env).bind fun v =>
      (hasHistory_ofExcept _).bind fun vs => hbody (vs ++ env)
  | cond test onTrue onFalse ht hf =>
    refine (hasHistory_ofExcept _).bind fun v => (hasHistory_ofExcept _).bind fun x => ?_
    split
    · exact ht env
    · exact hf env
    · exact hasHistory_throw _

def onHeap (t : Program Op) (env : Stack) : Action Heap Value :=
  Action.onPart (Machine.mk env) (fun m _ => m.heap) t.run

theorem onHeap_eq_runIn (t : Program Op) (env : Stack) : t.onHeap env = t.runIn env :=
  (t.run_lifts env).onPart_eq

end Program

end Runs

namespace Heap

inductive Call where
  | alloc (elem : Ty) (shape : Shape)
  | store (shape : Shape) (data : List Literal)
  | read (b : BufferId) (i : Nat)
  | write (b : BufferId) (i : Nat) (v : Literal)
  | buffer (b : BufferId)
  | free (b : BufferId)

inductive Command where
  | call (c : Call)
  | execute (k : Kernel) (args : List Actual)
  | cluster (c : Cluster Kernel) (args : List Actual) (shapes : List Shape)
  | program (t : Program Kernel) (env : Stack)

inductive Reply where
  | name (b : BufferId)
  | element (v : Literal)
  | contents (x : Buffer)
  | value (v : Value)
  | done
  deriving DecidableEq, Repr

def Call.act : Call → Action Heap Reply
  | .alloc elem shape => do
    let b ← Heap.alloc elem shape
    pure (.name b)
  | .store shape data => do
    let b ← Heap.store shape data
    pure (.name b)
  | .read b i => do
    let v ← Action.observe (·.read b i)
    pure (.element v)
  | .write b i v => do
    Heap.write b i v
    pure .done
  | .buffer b => do
    let x ← Action.observe (·.buffer b)
    pure (.contents x)
  | .free b => Action.afterwards (·.free b) (pure .done)

def Command.act : Command → Action Heap Reply
  | .call c => c.act
  | .execute k args => do
    k.execute args
    pure .done
  | .cluster c args shapes => do
    c.run args shapes
    pure .done
  | .program t env => do
    let v ← t.onHeap env
    pure (.value v)

/-- The heap after the commands, the latest of which is first. -/
def after : List Command → Heap
  | [] => empty
  | c :: cs => (c.act.outcome (after cs)).2

def Reply.name? : Except Fault Reply → Option BufferId
  | .ok (.name b) => some b
  | _ => none

def returned : List Command → List BufferId
  | [] => []
  | c :: cs => (Reply.name? (c.act.outcome (after cs)).1).toList ++ returned cs

/-- All that the commands did to the heap, those inside runs included. -/
inductive History : List Command → List Event → Prop
  | start : History [] []
  | step {cs : List Command} {log es : List Event} (c : Command) (before : History cs log)
      (performed : Performs c.act (after cs) es) : History (c :: cs) (es ++ log)

theorem Call.hasHistory_act (c : Call) : HasHistory c.act := by
  cases c with
  | alloc elem shape => exact (hasHistory_alloc elem shape).bind fun b => hasHistory_pure _
  | store shape data => exact (hasHistory_store shape data).bind fun b => hasHistory_pure _
  | read b i => exact (hasHistory_observe _).bind fun v => hasHistory_pure _
  | write b i v => exact (hasHistory_write b i v).bind fun _ => hasHistory_pure _
  | buffer b => exact (hasHistory_observe _).bind fun x => hasHistory_pure _
  | free b => exact (hasHistory_pure _).free b

theorem Command.hasHistory_act (c : Command) : HasHistory c.act := by
  cases c with
  | call c => exact c.hasHistory_act
  | execute k args => exact (k.hasHistory_execute args).bind fun _ => hasHistory_pure _
  | cluster c args shapes =>
    exact (c.hasHistory_run Kernel.hasHistory_execute args shapes).bind fun _ => hasHistory_pure _
  | program t env =>
    have ht := t.hasHistory_runIn Kernel.hasHistory_execute env
    rw [← t.onHeap_eq_runIn] at ht
    exact ht.bind fun v => hasHistory_pure _

theorem exists_history (cs : List Command) : ∃ log, History cs log := by
  induction cs with
  | nil => exact ⟨[], .start⟩
  | cons c cs ih =>
    obtain ⟨log, hlog⟩ := ih
    obtain ⟨es, hes⟩ := c.hasHistory_act (after cs)
    exact ⟨es ++ log, .step c hlog hes⟩

theorem History.recorded {cs : List Command} {log : List Event} (hl : History cs log) :
    Recorded log (after cs) := by
  induction hl with
  | start => exact recorded_empty
  | step c _ hc ih => exact hc.recorded ih

def Replies (h : Heap) (r : Except Fault Reply × Heap) : Prop :=
  (∃ e, r = (.error e, h)) ∨
    ∃ a g, r = (.ok a, g) ∧ ∀ b, a = .name b → b = ⟨h.next⟩ ∧ g.next = h.next + 1

theorem Inserted.replies {h : Heap} {made? : Option Buffer} {r : Except Fault BufferId × Heap}
    (hr : Inserted h made? r) : Replies h (r.1.map Reply.name, r.2) := by
  rcases hr with ⟨e, rfl⟩ | ⟨x, _, _, rfl⟩
  · exact .inl ⟨e, rfl⟩
  · refine .inr ⟨_, _, rfl, fun b hb => ?_⟩
    cases hb
    exact ⟨rfl, List.length_append⟩

theorem Call.replies (c : Call) (h : Heap) : Replies h (c.act.outcome h) := by
  cases c with
  | alloc elem shape =>
    rw [act, Action.outcome_map]
    exact (inserted_alloc elem shape h).replies
  | store shape data =>
    rw [act, Action.outcome_map]
    exact (inserted_store shape data h).replies
  | read b i =>
    rw [act, Action.outcome_map, Action.outcome_observe]
    cases h.read b i with
    | error e => exact .inl ⟨e, rfl⟩
    | ok v => exact .inr ⟨_, _, rfl, nofun⟩
  | write b i v =>
    rw [act, Action.outcome_map]
    rcases write_cases b i v h with ⟨e, hw⟩ | ⟨x, _, _, hw⟩
    · rw [hw]
      exact .inl ⟨e, rfl⟩
    · rw [hw]
      exact .inr ⟨_, _, rfl, nofun⟩
  | buffer b =>
    rw [act, Action.outcome_map, Action.outcome_observe]
    cases h.buffer b with
    | error e => exact .inl ⟨e, rfl⟩
    | ok x => exact .inr ⟨_, _, rfl, nofun⟩
  | free b => exact .inr ⟨_, _, rfl, nofun⟩

theorem Call.eq_of_error (c : Call) {h : Heap} {e : Fault} (he : (c.act.outcome h).1 = .error e) :
    (c.act.outcome h).2 = h := by
  rcases c.replies h with ⟨e', hc⟩ | ⟨r, g, hc, _⟩
  · rw [hc]
  · rw [hc] at he
    cases he

theorem Reply.name?_map {α : Type} {f : α → Reply} (hf : ∀ a, name? (.ok (f a)) = none)
    (r : Except Fault α) : name? (r.map f) = none := by
  cases r with
  | error e => rfl
  | ok a => exact hf a

theorem Command.of_name? (c : Command) {h : Heap} {b : BufferId}
    (hb : Reply.name? (c.act.outcome h).1 = some b) :
    b = ⟨h.next⟩ ∧ (c.act.outcome h).2.next = h.next + 1 := by
  cases c with
  | call c =>
    rw [act] at hb ⊢
    rcases c.replies h with ⟨e, hc⟩ | ⟨r, g, hc, hr⟩
    · rw [hc] at hb
      cases hb
    · rw [hc] at hb ⊢
      cases r with
      | name b' =>
        cases hb
        exact hr b rfl
      | element _ | contents _ | value _ | done => cases hb
  | execute _ _ | cluster _ _ _ | program _ _ =>
    rw [act, Action.outcome_map, Reply.name?_map fun _ => rfl] at hb
    cases hb

theorem History.sublist_namesIn {cs : List Command} {log : List Event} (hl : History cs log) :
    (returned cs).Sublist (namesIn log) := by
  induction hl with
  | start => exact .refl _
  | step c before hc ih =>
    rename_i cs log es
    rw [returned, namesIn, List.filterMap_append]
    refine List.Sublist.append ?_ ih
    cases hb : Reply.name? (c.act.outcome (after cs)).1 with
    | none => exact List.nil_sublist _
    | some b =>
      obtain ⟨rfl, hnext⟩ := c.of_name? hb
      -- One name more is in the history than there was before.
      have hnames := (hc.recorded before.recorded).names
      rw [hnext, List.range_succ, List.map_append, List.reverse_append, ← before.recorded.names,
        namesIn, List.filterMap_append] at hnames
      rw [List.append_cancel_right hnames]
      exact .refl _

/-- No name is returned twice, freed or not. Every live buffer has a name before the next one
and as many elements as the product of its extents, unless that is too large for a word; then
it has as many as the wrapped product says. A call that faults changes nothing. Every session
has a history, which gives each name out once and says which buffers are live, and reading
gives the last value that was written, or else the one that was there at first. -/
theorem after_of_history (cs : List Command) :
    (returned cs).Nodup ∧
      (∀ b x, (after cs).find? b = some x →
        x.data.length = x.shape.volume ∧
          (x.data.length = x.shape.product ↔ x.shape.product < UInt64.size) ∧
          b.number < (after cs).next ∧
          ∀ i < x.data.length, ∃ v, (after cs).read b i = .ok v) ∧
      (∀ (c : Call) h e, (c.act.outcome h).1 = .error e → (c.act.outcome h).2 = h) ∧
      (∃ log, History cs log) ∧
      ∀ log, History cs log →
        (namesIn log).Nodup ∧ (returned cs).Sublist (namesIn log) ∧
          (∀ b, ((after cs).find? b).isSome = liveAfter b log) ∧
          ∀ b i v, (after cs).read b i = .ok v ↔
            liveAfter b log = true ∧ valueAfter b i log = some v := by
  obtain ⟨log, hlog⟩ := exists_history cs
  refine ⟨hlog.recorded.nodup_namesIn.sublist hlog.sublist_namesIn, fun b x hb => ?_,
    fun c h e he => c.eq_of_error he, ⟨log, hlog⟩, fun log hlog => ?_⟩
  · have hsize := hlog.recorded.sized b x hb
    refine ⟨hsize, ?_, number_lt_next hb, fun i hi => ?_⟩
    · rw [hsize]
      exact Shape.volume_eq_product_iff
    · rw [read_of_find? hb, List.getElem?_eq_getElem hi]
      exact ⟨_, rfl⟩
  · exact ⟨hlog.recorded.nodup_namesIn, hlog.sublist_namesIn, hlog.recorded.live,
      fun b i v => hlog.recorded.read_eq_ok_iff⟩

/-- The names of the first buffer, which is freed, and of the temporary of the cluster are
not returned again. The write to the first one at the end faults. -/
theorem after_of_history_freed :
    let i : Ty := .int 64
    let positions : Kernel := .generate 1 i (.lam (.slot i) (.body (.var ⟨0, i⟩)))
    let successors : Kernel :=
      .map 1 i i (.unary i (.binary .add (.var ⟨0, i⟩) (.const (.int 1))))
    ∃ c : Cluster Kernel,
      Cluster.fuse (.single positions) (.single successors) [.consumed, .rightOnlyOut] = .ok c ∧
      ∃ cs : List Command, cs =
          [.call (.write ⟨0⟩ 0 (.int 5)),
            .call (.write ⟨1⟩ 0 (.int 9)),
            .call (.store [1] [.int 7]),
            .program (.alloc i []) [],
            .cluster c [.output ⟨2⟩ (.array 1 i)] [[2]],
            .call (.alloc i [2]),
            .call (.free ⟨0⟩),
            .execute successors [.input ⟨0⟩ (.array 1 i), .output ⟨1⟩ (.array 1 i)],
            .call (.alloc i [2]),
            .call (.store [2] [.int 1, .int 2])] ∧
        returned cs = [⟨5⟩, ⟨2⟩, ⟨1⟩, ⟨0⟩] ∧ (returned cs).Nodup ∧
        (∃ x, (after cs).find? ⟨1⟩ = some x ∧ x.data.length = x.shape.product) ∧
        ∃ log, History cs log ∧ (returned cs).Sublist (namesIn log) ∧
          liveAfter ⟨0⟩ log = false ∧ liveAfter ⟨3⟩ log = false ∧ liveAfter ⟨4⟩ log = true ∧
          valueAfter ⟨1⟩ 0 log = some (.int 9) ∧ valueAfter ⟨1⟩ 1 log = some (.int 3) ∧
          valueAfter ⟨2⟩ 1 log = some (.int 2) := by
  intro i positions successors
  refine ⟨_, rfl, _, rfl, by decide +kernel, (after_of_history _).1, ?_, ?_⟩
  · refine ⟨⟨[2], [.int 9, .int 3]⟩, ?live, ((after_of_history _).2.1 ⟨1⟩ _ ?live).2.1.2 ?_⟩
    all_goals decide +kernel
  obtain ⟨log, hlog⟩ := (after_of_history _).2.2.2.1
  obtain ⟨_, hsub, hlive, hread⟩ := (after_of_history _).2.2.2.2 log hlog
  refine ⟨log, hlog, hsub, (hlive ⟨0⟩).symm.trans ?_, (hlive ⟨3⟩).symm.trans ?_,
    (hlive ⟨4⟩).symm.trans ?_,
    ((hread ⟨1⟩ 0 _).1 (read_of_find? (x := ⟨[2], [.int 9, .int 3]⟩) ?_ 0)).2,
    ((hread ⟨1⟩ 1 _).1 (read_of_find? (x := ⟨[2], [.int 9, .int 3]⟩) ?_ 1)).2,
    ((hread ⟨2⟩ 1 _).1 (read_of_find? (x := ⟨[2], [.int 1, .int 2]⟩) ?_ 1)).2⟩
  all_goals decide +kernel

/-- The product of these extents wraps around to none. -/
example : (store [4294967296, 4294967296] []).outcome empty =
    (.ok ⟨0⟩, ⟨[some ⟨[4294967296, 4294967296], []⟩]⟩) := rfl

end Heap

end ArrayFusion
