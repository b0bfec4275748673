import ArrayFusion.Program.Run
import ArrayFusion.Proofs.Kernel.Bounds
set_option autoImplicit false

namespace ArrayFusion

open ArrayFusion.Action

variable {Γ : Context} {env : Stack}

namespace Program

variable {Op : Type}

def NoRead : Program Op → Prop
  | .exec _ _ | .ret _ | .alloc _ _ => True
  | .compute e => e.NoRead
  | .letIn _ bound body => bound.NoRead ∧ body.NoRead
  | .cond _ onTrue onFalse => onTrue.NoRead ∧ onFalse.NoRead

def AllOps (P : Op → Prop) : Program Op → Prop
  | .exec op _ => P op
  | .ret _ | .compute _ | .alloc _ _ => True
  | .letIn _ bound body => bound.AllOps P ∧ body.AllOps P
  | .cond _ onTrue onFalse => onTrue.AllOps P ∧ onFalse.AllOps P

end Program

section References

variable (henv : env.length = Γ.length)

include henv

theorem Context.Has.lookup_inBounds {r : Ref} (h : Γ.Has r) :
    Answers (fun _ => True) Fault.InBounds (env.lookup r) :=
  Stack.lookup_inBounds (henv ▸ h.index_lt)

theorem Tuple.value_inBounds {t : Tuple} (h : t.AllFree Γ.Has) :
    Answers (fun _ => True) Fault.InBounds (t.value env) := by
  induction t with
  | unit => trivial
  | ref r => exact Context.Has.lookup_inBounds henv h
  | pair a b iha ihb => exact (iha h.1).bind fun v _ => (ihb h.2).bind fun w _ => trivial

theorem Stack.extents_inBounds {shape : List Ref} (h : ∀ r ∈ shape, Γ.Has r ∧ r.ty = .size) :
    Answers (fun _ => True) Fault.InBounds (env.extents shape) := by
  induction shape with
  | nil => trivial
  | cons r shape ih =>
    obtain ⟨hr, hrest⟩ := List.forall_mem_cons.1 h
    exact (hr.1.lookup_inBounds henv).bind fun v _ => v.asExtent_inBounds.bind fun n _ =>
      (ih hrest).bind fun ns _ => trivial

theorem Operand.resolve_inBounds {o : Operand} (h : o.issues Γ = []) :
    Answers (fun _ => True) Fault.InBounds (o.resolve env) := by
  cases o with
  | scalar r =>
    have hhas := Context.indexIssues_eq_nil_iff.1 h
    exact (hhas.lookup_inBounds henv).bind fun v _ => v.asLiteral_inBounds.bind fun x _ => trivial
  | function f => trivial
  | input shape b | output shape b =>
    have hhas := (bufferIssues_eq_nil_iff.1 h).1
    exact (hhas.lookup_inBounds henv).bind fun v _ => v.asBuffer_inBounds.bind fun x _ => trivial

theorem resolveAll_inBounds {os : List Operand} (h : ∀ o ∈ os, o.issues Γ = []) :
    Answers (fun _ => True) Fault.InBounds (resolveAll env os) := by
  induction os with
  | nil => trivial
  | cons o os ih =>
    obtain ⟨ho, hrest⟩ := List.forall_mem_cons.1 h
    exact (o.resolve_inBounds henv ho).bind fun a _ => (ih hrest).bind fun as _ => trivial

end References

structure Machine.Checked (Γ : Context) (m : Machine) : Prop where
  length : m.env.length = Γ.length
  wellSized : m.heap.WellSized

theorem Machine.onHeap_inBounds {α : Type} {x : Action Heap α}
    (h : Keeps Heap.WellSized Fault.InBounds x) :
    Keeps (Machine.Checked Γ) Fault.InBounds (Machine.onHeap x) :=
  Meets.onPart fun _ hm => h.mono (fun _ hg => hg ▸ hm.wellSized) fun _ _ hg => ⟨hm.length, hg⟩

namespace Program

theorem run_inBounds {t : Program Kernel} (hr : t.NoRead)
    (hk : t.AllOps fun k => k.fn.issues [] = []) (h : t.issues Γ = []) :
    Keeps (Machine.Checked Γ) Fault.InBounds t.run := by
  induction t generalizing Γ with
  | exec op args =>
    have hargs := (issues_exec_eq_nil_iff.1 h).2
    exact (keeps_observe fun m hm => resolveAll_inBounds hm.length hargs).bind fun as =>
      (Machine.onHeap_inBounds (Kernel.execute_inBounds hk as)).bind fun _ => keeps_pure _
  | ret t =>
    exact keeps_observe fun m hm => Tuple.value_inBounds hm.length (issues_ret_eq_nil_iff.1 h)
  | compute e =>
    refine keeps_observe fun m hm => ?_
    exact (Expr.eval_inBounds hr h hm.length m.heap).answer rfl fun _ _ _ => trivial
  | alloc elem shape =>
    have hext := issues_alloc_eq_nil_iff.1 h
    exact (keeps_observe fun m hm => Stack.extents_inBounds hm.length hext).bind fun ns =>
      (Machine.onHeap_inBounds (Heap.alloc_inBounds elem ns)).bind fun b => keeps_pure _
  | letIn p a b iha ihb =>
    obtain ⟨ha, -, hb⟩ := issues_letIn_eq_nil_iff.1 h
    refine (iha hr.1 hk.1 ha).bind fun v => ?_
    refine meets_scoped (fun before m => m.truncate before.env.length)
      (R := Machine.Checked (Γ.enter p)) ?_ (ihb hr.2 hk.2 hb) fun m _ m' hm hm' => ?_
    · refine Meets.onPart fun m hm => (p.bind_inBounds v Γ.length).mono (fun s hs => ?_)
        fun _ s hs => ⟨hs.trans (Context.length_enter Γ p).symm, hm.wellSized⟩
      rw [hs, hm.length]
    · have hlen := hm'.length.trans (Context.length_enter Γ p)
      rw [hm.length]
      exact ⟨Stack.length_truncate hlen, hm'.wellSized⟩
  | cond test a b iha ihb =>
    obtain ⟨htest, -, ha, hb⟩ := issues_cond_eq_nil_iff.1 h
    refine (keeps_observe fun m hm => htest.lookup_inBounds hm.length).bind fun v =>
      (keeps_ofExcept v.asLiteral_inBounds).bind fun x => ?_
    cases x with
    | bool c =>
      cases c
      · exact ihb hr.2 hk.2 hb
      · exact iha hr.1 hk.1 ha
    | int _ | float _ => exact keeps_throw trivial

/-- Whatever the values in the environment are, no reference and no position leads past
the end of what it points into. -/
theorem run_ne_outOfRange (t : Program Kernel) (Γ : Context) (hread : t.NoRead)
    (hclosed : t.AllOps fun k => k.fn.issues [] = []) (h : t.issues Γ = []) (env : Stack)
    (heap : Heap) (henv : env.length = Γ.length) (hheap : heap.WellSized) (index len : Nat)
    (m : Machine) : t.run ⟨env, heap⟩ ≠ .error (.outOfRange index len) m := by
  intro hrun
  have hmeets := run_inBounds hread hclosed h ⟨env, heap⟩ ⟨henv, hheap⟩
  rw [hrun] at hmeets
  exact hmeets

/-- A copy of a buffer with its elements doubled. In the second environment a unit stands
where the extent should be, and the run ends in a fault of another kind. -/
theorem run_ne_outOfRange_double :
    let i : Ty := .int 64
    let a : Ty := .array 1 i
    let double : Fn :=
      .unary i (.letIn (.slot i) (.var ⟨0, i⟩) (.binary .add (.var ⟨0, i⟩) (.var ⟨1, i⟩)))
    let t : Program Kernel :=
      .letIn (.pair (.slot i) (.slot a)) (.ret (.pair (.ref ⟨0, i⟩) (.ref ⟨1, a⟩)))
        (.letIn (.slot a) (.alloc i [⟨1, i⟩])
          (.letIn (.wild .unit)
            (.exec (.map 1 i i double) [.input [⟨2, i⟩] ⟨1, a⟩, .output [⟨2, i⟩] ⟨0, a⟩])
            (.ret (.ref ⟨0, a⟩))))
    let heap : Heap := ⟨[some ⟨[2], [.int 3, .int 4]⟩]⟩
    let env : Stack := [.scalar (.int 2), .buffer ⟨0⟩]
    let env' : Stack := [.unit, .buffer ⟨0⟩]
    t.run ⟨env, heap⟩ = .ok (.buffer ⟨1⟩) ⟨env, ⟨heap.cells ++ [some ⟨[2], [.int 6, .int 8]⟩]⟩⟩ ∧
      (∃ m, t.run ⟨env', heap⟩ = .error (.invariant (.notScalar .unit)) m) ∧
      (∀ index len m, t.run ⟨env, heap⟩ ≠ .error (.outOfRange index len) m) ∧
      ∀ index len m, t.run ⟨env', heap⟩ ≠ .error (.outOfRange index len) m := by
  intro i a double t heap env env'
  have hread : t.NoRead := ⟨trivial, trivial, trivial, trivial⟩
  have hclosed : t.AllOps fun k => k.fn.issues [] = [] := ⟨trivial, trivial, rfl, trivial⟩
  have hheap : heap.WellSized := by
    rintro ⟨_ | n⟩ x hx
    · cases hx
      rfl
    · cases hx
  exact ⟨rfl, ⟨_, rfl⟩, run_ne_outOfRange t [i, a] hread hclosed rfl env heap rfl hheap,
    run_ne_outOfRange t [i, a] hread hclosed rfl env' heap rfl hheap⟩

end Program

end ArrayFusion
