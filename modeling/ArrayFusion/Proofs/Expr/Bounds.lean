import ArrayFusion.Expr.Eval
import ArrayFusion.Proofs.Program.Environment
import ArrayFusion.Proofs.Program.Issues
import ArrayFusion.Proofs.Triple
set_option autoImplicit false

namespace ArrayFusion

open ArrayFusion.Action

/-- Not the fault of a reference or position past the end of what it points into. -/
def Fault.InBounds : Fault → Prop
  | .outOfRange _ _ => False
  | _ => True

def Expr.NoRead : Expr → Prop
  | .var _ | .const _ | .nil => True
  | .unary _ e | .fst e | .snd e | .param _ e => e.NoRead
  | .letIn _ a b | .binary _ a b | .pair a b => a.NoRead ∧ b.NoRead
  | .cond a b c => a.NoRead ∧ b.NoRead ∧ c.NoRead
  | .read _ _ => False

theorem Value.asLiteral_inBounds (v : Value) :
    Answers (fun _ => True) Fault.InBounds v.asLiteral := by
  cases v <;> trivial

theorem Value.asBuffer_inBounds (v : Value) :
    Answers (fun _ => True) Fault.InBounds v.asBuffer := by
  cases v <;> trivial

theorem Value.asExtent_inBounds (v : Value) :
    Answers (fun _ => True) Fault.InBounds v.asExtent := by
  refine v.asLiteral_inBounds.bind fun x _ => ?_
  cases x with
  | int n =>
    simp only
    split <;> trivial
  | bool _ | float _ => trivial

theorem UnaryOp.apply_inBounds (op : UnaryOp) (x : Literal) :
    Answers (fun _ => True) Fault.InBounds (op.apply x) := by
  unfold apply
  split <;> trivial

theorem BinaryOp.apply_inBounds (op : BinaryOp) (x y : Literal) :
    Answers (fun _ => True) Fault.InBounds (op.apply x y) := by
  unfold apply
  split <;> (try split) <;> trivial

theorem Stack.lookup_inBounds {env : Stack} {r : Ref} (h : r.index < env.length) :
    Answers (fun _ => True) Fault.InBounds (env.lookup r) := by
  rw [lookup, List.getElem?_eq_getElem h]
  trivial

theorem Stack.length_truncate {s : Stack} {m n : Nat} (h : s.length = m + n) :
    (s.truncate n).length = n := by
  rw [truncate, List.length_drop]
  omega

theorem Pattern.bind_inBounds (p : Pattern) (v : Value) (n : Nat) :
    Meets (fun s : Stack => s.length = n) (fun _ s => s.length = p.size + n) Fault.InBounds
      (p.bind v) := by
  induction p generalizing v n with
  | wild t =>
    refine meets_pure fun s hs => ?_
    rw [hs, size, Nat.zero_add]
  | slot t =>
    intro s hs
    have hlen : (v :: s).length = 1 + n := by rw [List.length_cons, hs, Nat.add_comm]
    exact hlen
  | pair p q hp hq =>
    cases v with
    | pair a b =>
      refine ((hp a n).bind fun _ => hq b (p.size + n)).mono (fun _ hs => hs) fun _ s hs => ?_
      rw [hs, size]
      omega
    | scalar _ | buffer _ | unit => exact meets_throw trivial

namespace Expr

variable {Γ Ψ : Context} {env : Stack}

theorem eval_inBounds {e : Expr} (hr : e.NoRead) (h : e.issues Γ Ψ = [])
    (henv : env.length = Γ.length) (heap : Heap) :
    Keeps (fun s : Stack => s.length = Ψ.length) Fault.InBounds (e.eval env heap) := by
  induction e generalizing Ψ with
  | letIn p a b iha ihb =>
    obtain ⟨ha, _, hb⟩ := issues_letIn_eq_nil_iff.1 h
    refine (iha hr.1 ha).bind fun v => ?_
    refine meets_scoped (fun before s => s.truncate before.length) (p.bind_inBounds v Ψ.length)
      ((ihb hr.2 hb).mono (fun s hs => ?_) fun _ _ hs => hs) fun s _ t hs ht => ?_
    · rw [hs, Context.length_enter]
    · rw [Context.length_enter] at ht
      rw [hs]
      exact Stack.length_truncate ht
  | var r =>
    have hhas := Context.scalarIssues_eq_nil_iff.1 h
    exact keeps_observe fun s hs => Stack.lookup_inBounds (hs ▸ hhas.index_lt)
  | const x => exact keeps_pure _
  | unary op e ih =>
    exact (ih hr h).bind fun v => (keeps_ofExcept v.asLiteral_inBounds).bind fun x =>
      (keeps_ofExcept (op.apply_inBounds x)).bind fun y => keeps_pure _
  | binary op a b iha ihb =>
    obtain ⟨ha, hb⟩ := issues_binary_eq_nil_iff.1 h
    exact (iha hr.1 ha).bind fun v => (keeps_ofExcept v.asLiteral_inBounds).bind fun x =>
      (ihb hr.2 hb).bind fun w => (keeps_ofExcept w.asLiteral_inBounds).bind fun y =>
      (keeps_ofExcept (op.apply_inBounds x y)).bind fun z => keeps_pure _
  | pair a b iha ihb =>
    obtain ⟨ha, hb⟩ := issues_pair_eq_nil_iff.1 h
    exact (iha hr.1 ha).bind fun v => (ihb hr.2 hb).bind fun w => keeps_pure _
  | nil => exact keeps_pure _
  | fst e ih | snd e ih =>
    refine (ih hr (issues_fst_eq_nil_iff.1 h).1).bind fun v => ?_
    cases v with
    | pair a b => exact keeps_pure _
    | scalar _ | buffer _ | unit => exact keeps_throw trivial
  | cond a b c iha ihb ihc =>
    obtain ⟨ha, _, hb, hc⟩ := issues_cond_eq_nil_iff.1 h
    refine (iha hr.1 ha).bind fun v => (keeps_ofExcept v.asLiteral_inBounds).bind fun x => ?_
    cases x with
    | bool t =>
      cases t
      · exact ihc hr.2.2 hc
      · exact ihb hr.2.1 hb
    | int _ | float _ => exact keeps_throw trivial
  | read r e => exact hr.elim
  | param r e =>
    have hhas := (issues_param_eq_nil_iff.1 h).1
    exact keeps_ofExcept (Stack.lookup_inBounds (henv ▸ hhas.index_lt))

theorem noRead_of_closed {e : Expr} (h : e.issues [] Ψ = []) : e.NoRead := by
  induction e generalizing Ψ with
  | var _ | const _ | nil => trivial
  | unary op e ih => exact ih h
  | fst e ih | snd e ih =>
    have he := ih (issues_fst_eq_nil_iff.1 h).1
    exact he
  | letIn p a b iha ihb =>
    obtain ⟨ha, _, hb⟩ := issues_letIn_eq_nil_iff.1 h
    exact ⟨iha ha, ihb hb⟩
  | binary op a b iha ihb =>
    obtain ⟨ha, hb⟩ := issues_binary_eq_nil_iff.1 h
    exact ⟨iha ha, ihb hb⟩
  | pair a b iha ihb =>
    obtain ⟨ha, hb⟩ := issues_pair_eq_nil_iff.1 h
    exact ⟨iha ha, ihb hb⟩
  | cond a b c iha ihb ihc =>
    obtain ⟨ha, _, hb, hc⟩ := issues_cond_eq_nil_iff.1 h
    exact ⟨iha ha, ihb hb, ihc hc⟩
  | read r e ih =>
    have hhas := (issues_read_eq_nil_iff.1 h).1
    exact absurd hhas.index_lt (Nat.not_lt_zero _)
  | param r e ih => exact ih (issues_param_eq_nil_iff.1 h).2

end Expr

namespace Fn

variable {Ψ : Context}

theorem applyIn_inBounds {f : Fn} (h : f.issuesIn [] Ψ = []) (heap : Heap) (args : List Value) :
    Meets (fun s : Stack => s.length = Ψ.length) (fun _ _ => True) Fault.InBounds
      (f.applyIn [] heap args) := by
  induction f generalizing Ψ args with
  | lam p f ih =>
    cases args with
    | nil => exact meets_throw trivial
    | cons v vs =>
      refine (p.bind_inBounds v Ψ.length).bind fun _ =>
        (ih h vs).mono (fun s hs => ?_) fun _ _ _ => trivial
      rw [hs, Context.length_enter]
  | body e =>
    cases args with
    | nil =>
      exact (Expr.eval_inBounds (Expr.noRead_of_closed h) h rfl heap).mono (fun _ hs => hs)
        fun _ _ _ => trivial
    | cons v vs => exact meets_throw trivial

theorem apply_inBounds {f : Fn} (h : f.issues [] = []) (heap : Heap) (args : List Value) :
    Answers (fun _ => True) Fault.InBounds (f.apply [] heap args) :=
  (applyIn_inBounds h heap args).answer rfl fun _ _ _ => trivial

end Fn

end ArrayFusion
