import ArrayFusion.Program.Run
import ArrayFusion.Proofs.Program.Environment
set_option autoImplicit false

/-!
What evaluation leaves on the stack. A binder takes its values away with its scope, even if the
scope ends in a fault. Values stay behind only where one does not fit the pattern that is to take
it apart. They lie on top of what was there, and a binder takes them away if this happens in its
body, but not if it happens in what it binds.
-/

namespace ArrayFusion

def Fault.Misfit (e : Fault) : Prop := ∃ v p, e = .invariant (.cannotBind v p)

theorem Stack.truncate_of_suffix {s t : Stack} (h : s <:+ t) : t.truncate s.length = s := by
  obtain ⟨vs, rfl⟩ := h
  exact truncate_append vs s

namespace Action

variable {σ α β : Type} {view : σ → Stack}

/-- The stack is what it was once there is a result. After a fault it is still there, under
what a value that did not fit its pattern left behind. -/
def Disciplined (view : σ → Stack) (x : Action σ α) : Prop := ∀ s, match x s with
  | .ok _ t => view t = view s
  | .error e t => view s <:+ view t ∧ (¬e.Misfit → view t = view s)

def Extends (view : σ → Stack) (x : Action σ Unit) : Prop := ∀ s, match x s with
  | .ok _ t => view s <:+ view t
  | .error e t => view s <:+ view t ∧ e.Misfit

theorem disciplined_pure (a : α) : Disciplined view (pure a) := fun _ => rfl

theorem disciplined_throw (e : Fault) : Disciplined view (throw e : Action σ α) :=
  fun _ => ⟨List.suffix_rfl, fun _ => rfl⟩

theorem disciplined_observe (f : σ → Except Fault α) : Disciplined view (observe f) := by
  intro s
  unfold observe ofExcept
  cases f s with
  | ok a => rfl
  | error e => exact ⟨List.suffix_rfl, fun _ => rfl⟩

theorem disciplined_ofExcept (y : Except Fault α) : Disciplined view (ofExcept y : Action σ α) :=
  disciplined_observe fun _ => y

theorem Disciplined.bind {x : Action σ α} {f : α → Action σ β} (hx : Disciplined view x)
    (hf : ∀ a, Disciplined view (f a)) : Disciplined view (x >>= f) := by
  intro s
  have hs := hx s
  simp only [Bind.bind, EStateM.bind]
  cases hr : x s with
  | error e t =>
    rw [hr] at hs
    exact hs
  | ok a t =>
    rw [hr] at hs
    have ht := hf a t
    simp only at hs ⊢
    rw [← hs]
    exact ht

theorem disciplined_scoped {back : σ → σ → σ} {enter : Action σ Unit} {x : Action σ α}
    (hback : ∀ s t, view (back s t) = (view t).truncate (view s).length)
    (henter : Extends view enter) (hx : Disciplined view x) :
    Disciplined view (do
      let before ← get
      enter
      afterwards (back before) x) := by
  intro s
  have hs := henter s
  rw [get_bind]
  simp only [Bind.bind, EStateM.bind]
  cases hr : enter s with
  | error e t =>
    rw [hr] at hs
    exact ⟨hs.1, fun hfit => absurd hs.2 hfit⟩
  | ok u t =>
    rw [hr] at hs
    have ht := hx t
    simp only at hs
    simp only [afterwards]
    cases hb : x t with
    | ok a w =>
      rw [hb] at ht
      simp only at ht ⊢
      rw [hback, ht, Stack.truncate_of_suffix hs]
    | error e w =>
      rw [hb] at ht
      have hw : view (back s w) = view s := by
        rw [hback, Stack.truncate_of_suffix (hs.trans ht.1)]
      exact ⟨hw ▸ List.suffix_rfl, fun _ => hw⟩

theorem Extends.bind {x : Action σ Unit} {f : Unit → Action σ Unit} (hx : Extends view x)
    (hf : ∀ u, Extends view (f u)) : Extends view (x >>= f) := by
  intro s
  have hs := hx s
  simp only [Bind.bind, EStateM.bind]
  cases hr : x s with
  | error e t =>
    rw [hr] at hs
    exact hs
  | ok u t =>
    rw [hr] at hs
    have ht := hf u t
    simp only at hs ⊢
    cases hb : f u t with
    | ok _ w =>
      rw [hb] at ht
      exact hs.trans ht
    | error e w =>
      rw [hb] at ht
      exact ⟨hs.trans ht.1, ht.2⟩

end Action

open ArrayFusion.Action

theorem Pattern.bind_extends (p : Pattern) (v : Value) : Extends id (p.bind v) := by
  induction p generalizing v with
  | wild t => exact fun s => List.suffix_rfl
  | slot t => exact fun s => List.suffix_cons v s
  | pair p q hp hq =>
    cases v with
    | pair a b => exact (hp a).bind fun _ => hq b
    | scalar _ | buffer _ | unit => exact fun s => ⟨List.suffix_rfl, _, _, rfl⟩

namespace Machine

theorem onEnv_extends {x : Action Stack Unit} (hx : Extends id x) : Extends env (onEnv x) := by
  intro m
  have hm := hx m.env
  unfold onEnv onPart
  cases hr : x m.env with
  | ok u s =>
    rw [hr] at hm
    exact hm
  | error e s =>
    rw [hr] at hm
    exact hm

theorem onHeap_disciplined {α : Type} (x : Action Heap α) : Disciplined env (onHeap x) := by
  intro m
  unfold onHeap onPart
  cases x m.heap with
  | ok a h => rfl
  | error e h => exact ⟨List.suffix_rfl, fun _ => rfl⟩

end Machine

theorem Expr.eval_disciplined (e : Expr) (env : Stack) (heap : Heap) :
    Disciplined id (e.eval env heap) := by
  induction e with
  | letIn p a b iha ihb =>
    exact iha.bind fun v => disciplined_scoped (fun _ _ => rfl) (p.bind_extends v) ihb
  | var r => exact disciplined_observe _
  | const x => exact disciplined_pure _
  | nil => exact disciplined_pure _
  | unary op e ih =>
    exact ih.bind fun v => (disciplined_ofExcept _).bind fun x =>
      (disciplined_ofExcept _).bind fun y => disciplined_pure _
  | binary op a b iha ihb =>
    exact iha.bind fun v => (disciplined_ofExcept _).bind fun x => ihb.bind fun w =>
      (disciplined_ofExcept _).bind fun y => (disciplined_ofExcept _).bind fun z =>
      disciplined_pure _
  | pair a b iha ihb => exact iha.bind fun v => ihb.bind fun w => disciplined_pure _
  | fst e ih | snd e ih =>
    refine ih.bind fun v => ?_
    cases v with
    | pair a b => exact disciplined_pure _
    | scalar _ | buffer _ | unit => exact disciplined_throw _
  | cond a b c iha ihb ihc =>
    refine iha.bind fun v => (disciplined_ofExcept _).bind fun x => ?_
    cases x with
    | bool t =>
      cases t
      · exact ihc
      · exact ihb
    | int _ | float _ => exact disciplined_throw _
  | read r e ih =>
    exact (disciplined_ofExcept _).bind fun array => (disciplined_ofExcept _).bind fun b =>
      ih.bind fun v => (disciplined_ofExcept _).bind fun i => (disciplined_ofExcept _).bind fun x =>
      disciplined_pure _
  | param r e => exact disciplined_ofExcept _

namespace Program

variable {Op : Type} [Executable Op]

theorem run_disciplined (t : Program Op) : Disciplined Machine.env t.run := by
  induction t with
  | exec op args =>
    exact (disciplined_observe _).bind fun as => (Machine.onHeap_disciplined _).bind fun _ =>
      disciplined_pure _
  | ret t => exact disciplined_observe _
  | compute e => exact disciplined_observe _
  | alloc elem shape =>
    exact (disciplined_observe _).bind fun ns => (Machine.onHeap_disciplined _).bind fun b =>
      disciplined_pure _
  | letIn p a b iha ihb =>
    exact iha.bind fun v => disciplined_scoped (fun _ _ => rfl)
      (Machine.onEnv_extends (p.bind_extends v)) ihb
  | cond r a b iha ihb =>
    refine (disciplined_observe _).bind fun v => (disciplined_ofExcept _).bind fun x => ?_
    cases x with
    | bool c =>
      cases c
      · exact ihb
      · exact iha
    | int _ | float _ => exact disciplined_throw _

/-- Evaluation at either level keeps the stack that it works on. -/
theorem stack_disciplined :
    (∀ (e : Expr) (env : Stack) (heap : Heap), Disciplined id (e.eval env heap)) ∧
      ∀ t : Program Op, Disciplined Machine.env t.run :=
  ⟨Expr.eval_disciplined, run_disciplined⟩

/-- The first component has been pushed when the second one turns out to be no pair. -/
example :
    let i : Ty := .int 64
    let p : Pattern := .pair (.slot i) (.pair (.slot i) (.slot i))
    let e : Expr := .letIn p (.pair (.const (.int 1)) (.const (.int 2))) .nil
    e.eval [] .empty [.unit] = .error
      (.invariant (.cannotBind (.scalar (.int 2)) (.pair (.slot i) (.slot i))))
      [.scalar (.int 1), .unit] := rfl

end Program

end ArrayFusion
