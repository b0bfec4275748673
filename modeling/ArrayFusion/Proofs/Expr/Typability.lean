import ArrayFusion.Proofs.Program.Issues
set_option autoImplicit false

/-!
Types that can be told and types that cannot. The checker passes over a check if the type
that it needs cannot be told, and the type is looked for in some of the subexpressions only.
Nothing gets lost in between: where a type cannot be told, an issue within the expression
has been listed before, so that all types can be told once there are no issues.
-/

namespace ArrayFusion

open List (infix_append_of_infix_left infix_append_of_infix_right)

theorem infix_flatMap_of_mem {α β : Type} {l : List α} {f : β → List α} {b : β} {bs : List β}
    (hb : b ∈ bs) (h : l <:+: f b) : l <:+: bs.flatMap f := by
  obtain ⟨before, after, rfl⟩ := List.append_of_mem hb
  rw [List.flatMap_append, List.flatMap_cons]
  exact infix_append_of_infix_right (infix_append_of_infix_left h)

structure Expr.Placed where
  expr : Expr
  arrays : Context
  scope : Context

def Expr.Placed.issues (x : Expr.Placed) : List Issue := x.expr.issues x.arrays x.scope

def Expr.parts (Γ : Context) (e : Expr) (Δ : Context) : List Placed :=
  ⟨e, Γ, Δ⟩ :: match e with
    | .var _ | .const _ | .nil => []
    | .unary _ a | .fst a | .snd a | .read _ a | .param _ a => a.parts Γ Δ
    | .letIn p a b => a.parts Γ Δ ++ b.parts Γ (Δ.enter p)
    | .binary _ a b | .pair a b => a.parts Γ Δ ++ b.parts Γ Δ
    | .cond a b c => a.parts Γ Δ ++ b.parts Γ Δ ++ c.parts Γ Δ

def Fn.parts (Γ : Context) : Fn → Context → List Expr.Placed
  | .lam p f, Δ => f.parts Γ (Δ.enter p)
  | .body e, Δ => e.parts Γ Δ

def Operand.parts (Γ : Context) : Operand → List Expr.Placed
  | .function f => f.parts Γ []
  | .scalar _ | .input _ _ | .output _ _ => []

def Program.parts {Op : Type} : Program Op → Context → List Expr.Placed
  | .exec _ args, Γ => args.flatMap (Operand.parts Γ)
  | .ret _, _ | .alloc _ _, _ => []
  | .compute e, Γ => e.parts Γ []
  | .letIn p a b, Γ => a.parts Γ ++ b.parts (Γ.enter p)
  | .cond _ a b, Γ => a.parts Γ ++ b.parts Γ

/-- The operand whose type is checked, and the check. -/
def Expr.judged? : Expr → Option (Expr × (Ty → List Issue))
  | .letIn p a _ => some (a, p.bindIssues)
  | .fst a | .snd a => some (a, pairIssues)
  | .cond a _ _ => some (a, conditionIssues)
  | _ => none

variable {Γ Δ : Context} {x : Expr.Placed}

/-- What is listed within a part is listed in one piece within the whole. -/
theorem Expr.issues_within {e : Expr} (h : x ∈ e.parts Γ Δ) : x.issues <:+: e.issues Γ Δ := by
  induction e generalizing Δ with
  | var _ | const _ | nil =>
    simp only [parts, List.mem_singleton] at h
    rw [h]
    exact List.infix_rfl
  | unary op a ih =>
    simp only [parts, List.mem_cons] at h
    rcases h with rfl | h
    · exact List.infix_rfl
    · exact ih h
  | fst a ih | snd a ih =>
    simp only [parts, List.mem_cons] at h
    rcases h with rfl | h
    · exact List.infix_rfl
    · exact infix_append_of_infix_left (ih h)
  | read r a ih | param r a ih =>
    simp only [parts, List.mem_cons] at h
    rcases h with rfl | h
    · exact List.infix_rfl
    · exact infix_append_of_infix_right (ih h)
  | letIn p a b iha ihb =>
    simp only [parts, List.mem_cons, List.mem_append] at h
    rcases h with rfl | ha | hb
    · exact List.infix_rfl
    · exact infix_append_of_infix_left (infix_append_of_infix_left (iha ha))
    · exact infix_append_of_infix_right (ihb hb)
  | binary op a b iha ihb | pair a b iha ihb =>
    simp only [parts, List.mem_cons, List.mem_append] at h
    rcases h with rfl | ha | hb
    · exact List.infix_rfl
    · exact infix_append_of_infix_left (iha ha)
    · exact infix_append_of_infix_right (ihb hb)
  | cond a b c iha ihb ihc =>
    simp only [parts, List.mem_cons, List.mem_append] at h
    rcases h with rfl | (ha | hb) | hc
    · exact List.infix_rfl
    · exact infix_append_of_infix_left
        (infix_append_of_infix_left (infix_append_of_infix_left (iha ha)))
    · exact infix_append_of_infix_left (infix_append_of_infix_right (ihb hb))
    · exact infix_append_of_infix_right (ihc hc)

theorem Fn.issues_within {f : Fn} (h : x ∈ f.parts Γ Δ) : x.issues <:+: f.issuesIn Γ Δ := by
  induction f generalizing Δ with
  | lam p f ih => exact ih h
  | body e => exact Expr.issues_within h

theorem Operand.issues_within {o : Operand} (h : x ∈ o.parts Γ) : x.issues <:+: o.issues Γ := by
  cases o with
  | function f => exact Fn.issues_within h
  | scalar _ | input _ _ | output _ _ => cases h

theorem Program.issues_within {Op : Type} [Operation Op] {t : Program Op} (h : x ∈ t.parts Γ) :
    x.issues <:+: t.issues Γ := by
  induction t generalizing Γ with
  | exec op args =>
    obtain ⟨o, ho, hx⟩ := List.mem_flatMap.1 h
    exact infix_append_of_infix_right (infix_flatMap_of_mem ho (Operand.issues_within hx))
  | ret _ | alloc _ _ => cases h
  | compute e => exact Expr.issues_within h
  | letIn p a b iha ihb =>
    rcases List.mem_append.1 h with ha | hb
    · exact infix_append_of_infix_left (infix_append_of_infix_left (iha ha))
    · exact infix_append_of_infix_right (ihb hb)
  | cond r a b iha ihb =>
    rcases List.mem_append.1 h with ha | hb
    · exact infix_append_of_infix_left (infix_append_of_infix_right (iha ha))
    · exact infix_append_of_infix_right (ihb hb)

theorem Expr.judged?_within {e a : Expr} {check : Ty → List Issue}
    (h : e.judged? = some (a, check)) :
    a.issues Γ Δ ++ a.typedIssues check <:+: e.issues Γ Δ := by
  cases e with
  | letIn p a b =>
    cases h
    exact infix_append_of_infix_left List.infix_rfl
  | cond a b c =>
    cases h
    exact infix_append_of_infix_left (infix_append_of_infix_left List.infix_rfl)
  | fst a | snd a =>
    cases h
    exact List.infix_rfl
  | var _ | const _ | nil | unary _ _ | binary _ _ _ | pair _ _ | read _ _ | param _ _ => cases h

/-- What the checker owes to expressions whose types cannot be told. -/
structure TypesTold (parts : List Expr.Placed) (issues : List Issue) : Prop where
  /-- Without issues every type can be told, and unit never stands in for one. -/
  accepted : issues = [] → ∀ x ∈ parts, x.expr.ty? = .ok x.expr.ty
  /-- A check has its place right after the issues within the operand. It is passed over only
  if there is one of these. -/
  reported : ∀ x ∈ parts, ∀ (a : Expr) (check : Ty → List Issue),
    x.expr.judged? = some (a, check) →
      a.issues x.arrays x.scope ++ a.typedIssues check <:+: issues ∧
        ∀ e : Fault, a.ty? = .error e →
          a.typedIssues check = [] ∧ a.issues x.arrays x.scope ≠ []

theorem typesTold_of_within {parts : List Expr.Placed} {issues : List Issue}
    (h : ∀ x ∈ parts, x.issues <:+: issues) : TypesTold parts issues where
  accepted hnil x hx := by
    have hwithin := h x hx
    rw [hnil, List.infix_nil] at hwithin
    exact Expr.ty?_eq_of_issues hwithin
  reported x hx a check hcheck := by
    refine ⟨(Expr.judged?_within hcheck).trans (h x hx), fun e he => ⟨?_, fun hnil => ?_⟩⟩
    · rw [Expr.typedIssues, he]
    · rw [Expr.ty?_eq_of_issues hnil] at he
      cases he

/-- Whatever is checked, all types within it can be told or there are issues, and a check is
passed over only after an issue. -/
theorem types_told {Op : Type} [Operation Op] :
    (∀ (e : Expr) (Γ Δ : Context), TypesTold (e.parts Γ Δ) (e.issues Γ Δ)) ∧
    (∀ (f : Fn) (Γ : Context), TypesTold (f.parts Γ []) (f.issues Γ)) ∧
    ∀ (t : Program Op) (Γ : Context), TypesTold (t.parts Γ) (t.issues Γ) :=
  ⟨fun _ _ _ => typesTold_of_within fun _ => Expr.issues_within,
    fun _ _ => typesTold_of_within fun _ => Fn.issues_within,
    fun _ _ => typesTold_of_within fun _ => Program.issues_within⟩

/-- The binder would not fit a unit either, but only the projection is reported. -/
example : (Expr.letIn (.slot (.int 64)) (.fst .nil) (.var ⟨0, .int 64⟩)).issues [] [] =
    [.notAPair .unit] := rfl

end ArrayFusion
