import ArrayFusion.Kernel.Execute
import ArrayFusion.Program.Run
import ArrayFusion.Proofs.Expr.Preservation
set_option autoImplicit false

namespace ArrayFusion

open ArrayFusion.Action

variable {Γ : Context} {env : Stack}

theorem Tuple.value_describes (henv : List.Forall₂ Ty.Describes Γ env) {t : Tuple}
    (h : t.AllFree Γ.Has) : Answers t.ty.Describes (fun _ => True) (t.value env) := by
  induction t with
  | unit => exact ⟨trivial, rfl⟩
  | ref r =>
    cases hv : env.lookup r with
    | ok v =>
      rw [value, hv]
      exact describes_of_lookup henv h hv
    | error e =>
      rw [value, hv]
      trivial
  | pair a b iha ihb =>
    exact (iha h.1).bind fun v hv => (ihb h.2).bind fun w hw =>
      Ty.describes_pair_iff.2 ⟨v, w, rfl, hv, hw⟩

theorem Heap.alloc_isScalar (elem : Ty) (shape : Shape) :
    Meets (fun _ => True) (fun _ _ => elem.isScalar) (fun _ => True) (Heap.alloc elem shape) := by
  refine meets_ofExcept_bind (fun _ => trivial) fun zero hz _ _ => ?_
  have hscalar : elem.isScalar := by
    unfold zeroOf at hz
    split at hz <;> first | rfl | cases hz
  exact hscalar

theorem Machine.onHeap_describes {α : Type} {x : Action Heap α} {R : α → Prop}
    (h : Meets (fun _ => True) (fun a _ => R a) (fun _ => True) x) :
    Meets (fun m => List.Forall₂ Ty.Describes Γ m.env)
      (fun a m => R a ∧ List.Forall₂ Ty.Describes Γ m.env) (fun _ => True) (Machine.onHeap x) :=
  Meets.onPart fun _ hm => h.mono (fun _ _ => trivial) fun _ _ ha => ⟨ha, hm⟩

namespace Program

variable {Op : Type}

def BranchesAgree : Program Op → Prop
  | .exec _ _ | .ret _ | .alloc _ _ => True
  | .compute e => e.BranchesAgree
  | .letIn _ bound body => bound.BranchesAgree ∧ body.BranchesAgree
  | .cond _ onTrue onFalse =>
    onTrue.ty = onFalse.ty ∧ onTrue.BranchesAgree ∧ onFalse.BranchesAgree

variable [Executable Op]

theorem run_describes {t : Program Op} (hb : t.BranchesAgree) (h : t.issues Γ = []) :
    Meets (fun m => List.Forall₂ Ty.Describes Γ m.env)
      (fun v m => t.ty.Describes v ∧ List.Forall₂ Ty.Describes Γ m.env) (fun _ => True) t.run := by
  have fault : ∀ e : Fault, True := fun _ => trivial
  induction t generalizing Γ with
  | exec op args =>
    refine Meets.bind (keeps_observe fun _ _ => Answers.any _) fun as => ?_
    exact (Machine.onHeap_describes meets_any).bind fun _ => meets_and fun _ =>
      meets_pure fun m hm => ⟨⟨trivial, rfl⟩, hm⟩
  | ret t =>
    have hhas := issues_ret_eq_nil_iff.1 h
    exact meets_observe fun m hm => (Tuple.value_describes hm hhas).mono fun v hv => ⟨hv, hm⟩
  | compute e =>
    refine meets_observe fun m hm => ?_
    have he : Answers e.ty.Describes (fun _ => True) (answer (e.eval m.env m.heap) []) :=
      (Expr.eval_describes hb h hm m.heap).answer .nil fun v _ hv => hv.1
    exact he.mono fun v hv => ⟨hv, hm⟩
  | alloc elem shape =>
    refine Meets.bind (keeps_observe fun _ _ => Answers.any _) fun ns => ?_
    exact (Machine.onHeap_describes (Heap.alloc_isScalar elem ns)).bind fun b =>
      meets_and fun hs => meets_pure fun m hm => ⟨⟨hs, trivial⟩, hm⟩
  | letIn p a b iha ihb =>
    obtain ⟨ha, hp, hbody⟩ := issues_letIn_eq_nil_iff.1 h
    refine (iha hb.1 ha).bind fun v => meets_and fun hv => ?_
    refine meets_scoped (fun before m => m.truncate before.env.length) ?_ (ihb hb.2 hbody)
      fun m w m' hm hm' => ?_
    · exact Meets.onPart fun m hm => (p.bind_describes (hp ▸ hv) Γ).mono (fun s hs => hs ▸ hm)
        fun _ s hs => hs
    · exact ⟨hm'.1, Stack.truncate_describes hm hm'.2⟩
  | cond test a b iha ihb =>
    obtain ⟨_, _, ha, hbr⟩ := issues_cond_eq_nil_iff.1 h
    obtain ⟨hty, hba, hbb⟩ := hb
    refine Meets.bind (keeps_observe fun _ _ => Answers.any _) fun v =>
      meets_ofExcept_bind fault fun x _ => ?_
    cases x with
    | bool c =>
      cases c
      · have hfalse := ihb hbb hbr
        rw [← hty] at hfalse
        exact hfalse
      · exact iha hba ha
    | int _ | float _ => exact meets_throw trivial

/-- Where each value fits the type of its slot, the result of a run fits the type of the
program. -/
theorem run_fits (t : Program Op) (Γ : Context) (harrays : ∀ u ∈ Γ, u.ScalarArrays)
    (hbranches : t.BranchesAgree) (h : t.issues Γ = []) (env : Stack) (heap : Heap)
    (henv : List.Forall₂ Ty.Fits Γ env) (v : Value) (m : Machine)
    (hrun : t.run ⟨env, heap⟩ = .ok v m) : t.ty.Fits v := by
  have hdescribes : List.Forall₂ Ty.Describes Γ env :=
    (List.forall₂_and_left Γ env).2 ⟨harrays, henv⟩
  have hmeets := run_describes hbranches h ⟨env, heap⟩ hdescribes
  rw [hrun] at hmeets
  exact hmeets.1.2

/-- A pair is taken apart, and a conditional in a conditional puts it together again. -/
theorem run_fits_conditional :
    let i : Ty := .int 64
    let p : Ty := .pair i .unit
    let first : Expr := .cond (.const (.bool false)) (.const (.int 1)) (.param ⟨0, i⟩ .nil)
    let t : Program Kernel :=
      .letIn (.pair (.slot i) (.wild .unit)) (.ret (.ref ⟨0, p⟩))
        (.cond ⟨2, .bool⟩ (.compute (.pair first .nil)) (.ret (.ref ⟨1, p⟩)))
    let env : Stack := [.pair (.scalar (.int 2)) .unit, .scalar (.bool true)]
    let v : Value := .pair (.scalar (.int 2)) .unit
    t.issues [p, .bool] = [] ∧ t.run ⟨env, .empty⟩ = .ok v ⟨env, .empty⟩ ∧ t.ty.Fits v := by
  intro i p first t env v
  have harrays : ∀ u ∈ [p, .bool], u.ScalarArrays := by
    intro u hu
    simp only [List.mem_cons, List.not_mem_nil, or_false] at hu
    rcases hu with rfl | rfl
    · exact ⟨trivial, trivial⟩
    · trivial
  have hbranches : t.BranchesAgree :=
    ⟨trivial, rfl, ⟨⟨rfl, trivial, trivial, trivial⟩, trivial⟩, trivial⟩
  have henv : List.Forall₂ Ty.Fits [p, .bool] env :=
    .cons ⟨_, _, rfl, trivial, rfl⟩ (.cons trivial .nil)
  exact ⟨rfl, rfl, run_fits t [p, .bool] harrays hbranches rfl env .empty henv v _ rfl⟩

/-- The checker has nothing to say of a conditional with a number on one branch and unit
on the other one, nor of the binder that is to receive a number from it. -/
theorem run_unit_of_conditional :
    let i : Ty := .int 64
    let bound : Program Kernel :=
      .compute (.cond (.const (.bool false)) (.const (.int 1)) .nil)
    let t : Program Kernel := .letIn (.slot i) bound (.ret (.ref ⟨0, i⟩))
    t.issues [] = [] ∧ t.run ⟨[], .empty⟩ = .ok .unit ⟨[], .empty⟩ ∧ t.ty = i ∧
      ¬t.ty.Fits .unit := ⟨rfl, rfl, rfl, id⟩

end Program

end ArrayFusion
