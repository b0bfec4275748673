import ArrayFusion.Expr.Eval
import ArrayFusion.Proofs.Program.Environment
import ArrayFusion.Proofs.Program.Issues
import ArrayFusion.Proofs.Triple
import Mathlib.Data.List.Forall2
set_option autoImplicit false

/-!
An expression without issues has a value of the form that its type asks for, if both
branches of its conditionals have one type. The checker does not compare them, and the
type of a conditional is that of its first branch.
-/

namespace ArrayFusion

open ArrayFusion.Action

def Value.IsAtom : Value → Prop
  | .scalar _ | .buffer _ => True
  | .unit | .pair _ _ => False

namespace Ty

/-- The value is a pair of fitting values exactly where the type is one of two
components, unit exactly where the type is unit, and a scalar or a buffer elsewhere. -/
def Fits : Ty → Value → Prop
  | .con .pair [a, b], v => ∃ x y, v = .pair x y ∧ a.Fits x ∧ b.Fits y
  | .con .unit _, v => v = .unit
  | _, v => v.IsAtom

/-- Arrays hold scalars, in the components of pairs as well. -/
def ScalarArrays : Ty → Prop
  | .con .pair [a, b] => a.ScalarArrays ∧ b.ScalarArrays
  | .con (.array _) [elem] => elem.isScalar
  | _ => True

def Describes (t : Ty) (v : Value) : Prop := t.ScalarArrays ∧ t.Fits v

variable {t a b : Ty} {v w : Value}

theorem describes_of_isScalar (h : t.isScalar) (hv : v.IsAtom) : t.Describes v := by
  unfold isScalar at h
  split at h <;> first | exact ⟨trivial, hv⟩ | cases h

theorem describes_pair_iff :
    (Ty.pair a b).Describes v ↔ ∃ x y, v = .pair x y ∧ a.Describes x ∧ b.Describes y := by
  constructor
  · rintro ⟨⟨ha, hb⟩, x, y, rfl, hx, hy⟩
    exact ⟨x, y, rfl, ⟨ha, hx⟩, hb, hy⟩
  · rintro ⟨x, y, rfl, ⟨ha, hx⟩, hb, hy⟩
    exact ⟨⟨ha, hb⟩, x, y, rfl, hx, hy⟩

theorem Describes.of_isAtom (h : t.Describes v) (hv : v.IsAtom) (hw : w.IsAtom) :
    t.Describes w := by
  have hfits : t.Fits v → t.Fits w := by
    unfold Fits
    split
    · rintro ⟨x, y, rfl, _⟩
      exact hv.elim
    · rintro rfl
      exact hv.elim
    · exact fun _ => hw
  exact ⟨h.1, hfits h.2⟩

end Ty

theorem Value.eq_scalar_of_asLiteral {v : Value} {x : Literal} (h : v.asLiteral = .ok x) :
    v = .scalar x := by
  cases v <;> cases h
  rfl

section Environments

variable {Γ : Context} {env : Stack}

theorem describes_of_lookup (henv : List.Forall₂ Ty.Describes Γ env) {r : Ref} (h : Γ.Has r)
    {v : Value} (hv : env.lookup r = .ok v) : r.ty.Describes v := by
  obtain ⟨hi, ht⟩ := List.getElem?_eq_some_iff.1 h
  obtain ⟨hj, hv⟩ := List.getElem?_eq_some_iff.1 (Stack.lookup_eq_ok_iff.1 hv)
  have hget := henv.get hi hj
  rwa [List.get_eq_getElem, List.get_eq_getElem, ht, hv] at hget

theorem Pattern.bind_describes (p : Pattern) {v : Value} (hv : p.ty.Describes v) (Γ : Context) :
    Meets (List.Forall₂ Ty.Describes Γ) (fun _ => List.Forall₂ Ty.Describes (Γ.enter p))
      (fun _ => True) (p.bind v) := by
  induction p generalizing v Γ with
  | wild t => exact meets_pure fun s hs => hs
  | slot t => exact fun s hs => List.Forall₂.cons hv hs
  | pair p q hp hq =>
    obtain ⟨x, y, rfl, hx, hy⟩ := Ty.describes_pair_iff.1 hv
    have hright := hq hy (Γ.enter p)
    rw [Context.enter, Context.enter, ← List.append_assoc] at hright
    exact (hp hx Γ).bind fun _ => hright

theorem Stack.truncate_describes {p : Pattern} {s t : Stack}
    (hs : List.Forall₂ Ty.Describes Γ s) (ht : List.Forall₂ Ty.Describes (Γ.enter p) t) :
    List.Forall₂ Ty.Describes Γ (t.truncate s.length) := by
  have hlen := ht.length_eq
  rw [Context.length_enter] at hlen
  have hdrop := List.forall₂_drop p.size ht
  rw [Context.enter, List.drop_left' p.length_slotTys] at hdrop
  rw [truncate, ← hlen, ← hs.length_eq, Nat.add_sub_cancel]
  exact hdrop

end Environments

namespace Expr

/-- Both branches of every conditional have one type. The operand of a parameter stands
for nothing. -/
def BranchesAgree : Expr → Prop
  | .var _ | .const _ | .nil | .param _ _ => True
  | .unary _ e | .fst e | .snd e | .read _ e => e.BranchesAgree
  | .letIn _ a b | .binary _ a b | .pair a b => a.BranchesAgree ∧ b.BranchesAgree
  | .cond a b c => b.ty = c.ty ∧ a.BranchesAgree ∧ b.BranchesAgree ∧ c.BranchesAgree

variable {Γ Ψ : Context} {env : Stack}

theorem ty_binary (op : BinaryOp) (a b : Expr) :
    (binary op a b).ty = if op.isComparison then .bool else a.ty := by
  cases h : op.isComparison <;> simp [ty, ty?, h]

theorem ty_pair {a b : Expr} (ha : a.issues Γ Ψ = []) (hb : b.issues Γ Ψ = []) :
    (pair a b).ty = .pair a.ty b.ty :=
  ty_of_ty? (bind_eq_ok.2 ⟨_, ty?_eq_of_issues ha, bind_eq_ok.2 ⟨_, ty?_eq_of_issues hb, rfl⟩⟩)

theorem ty_projections {e : Expr} (h : e.issues Γ Ψ = []) (hpair : e.ty.asPair.isSome) :
    e.ty = .pair (fst e).ty (snd e).ty := by
  have ht := ty?_eq_of_issues h
  obtain ⟨⟨a, b⟩, hab⟩ := Option.isSome_iff_exists.1 hpair
  have hfst : (fst e).ty = a := ty_of_ty? (bind_eq_ok.2 ⟨_, ht, by rw [hab]⟩)
  have hsnd : (snd e).ty = b := ty_of_ty? (bind_eq_ok.2 ⟨_, ht, by rw [hab]⟩)
  rw [hfst, hsnd]
  exact Ty.eq_pair_of_asPair hab

theorem read_describes {r : Ref} {e : Expr} (h : r.ty.asArray.isSome) (hr : r.ty.ScalarArrays)
    (x : Literal) : (read r e).ty.Describes (.scalar x) := by
  obtain ⟨⟨rank, elem⟩, ha⟩ := Option.isSome_iff_exists.1 h
  have hty : (read r e).ty = elem := ty_of_ty? (by rw [ty?, ha])
  rw [Ty.eq_array_of_asArray ha] at hr
  rw [hty]
  exact Ty.describes_of_isScalar hr trivial

theorem apply_describes {op : BinaryOp} {a b : Expr} {x : Literal}
    (ha : a.ty.Describes (.scalar x)) (z : Literal) : (binary op a b).ty.Describes (.scalar z) := by
  rw [ty_binary]
  split
  · exact Ty.describes_of_isScalar rfl trivial
  · exact ha.of_isAtom trivial trivial

theorem eval_describes {e : Expr} (hb : e.BranchesAgree) (h : e.issues Γ Ψ = [])
    (henv : List.Forall₂ Ty.Describes Γ env) (heap : Heap) :
    Meets (List.Forall₂ Ty.Describes Ψ)
      (fun v s => e.ty.Describes v ∧ List.Forall₂ Ty.Describes Ψ s) (fun _ => True)
      (e.eval env heap) := by
  have fault : ∀ e : Fault, True := fun _ => trivial
  induction e generalizing Ψ with
  | letIn p a b iha ihb =>
    obtain ⟨ha, hp, hbody⟩ := issues_letIn_eq_nil_iff.1 h
    refine (iha hb.1 ha).bind fun v => meets_and fun hv => ?_
    exact meets_scoped (fun before s : Stack => s.truncate before.length)
      (p.bind_describes (hp ▸ hv) Ψ) (ihb hb.2 hbody) fun s w t hs ht =>
        ⟨ht.1, Stack.truncate_describes hs ht.2⟩
  | var r =>
    have hhas := Context.scalarIssues_eq_nil_iff.1 h
    refine meets_observe fun s hs => ?_
    cases hv : Stack.lookup s r with
    | ok v => exact ⟨describes_of_lookup hs hhas hv, hs⟩
    | error e => trivial
  | const x =>
    refine meets_pure fun s hs => ⟨?_, hs⟩
    cases x <;> exact Ty.describes_of_isScalar rfl trivial
  | unary op e ih =>
    refine (ih hb h).bind fun v => meets_and fun hv => ?_
    refine meets_ofExcept_bind fault fun x hx => meets_ofExcept_bind fault fun y hy => ?_
    refine meets_pure fun s hs => ⟨?_, hs⟩
    cases op with
    | neg =>
      obtain rfl := Value.eq_scalar_of_asLiteral hx
      exact hv.of_isAtom trivial trivial
    | not => exact Ty.describes_of_isScalar rfl trivial
  | binary op a b iha ihb =>
    obtain ⟨hleft, hright⟩ := issues_binary_eq_nil_iff.1 h
    refine (iha hb.1 hleft).bind fun v => meets_and fun hv => ?_
    refine meets_ofExcept_bind fault fun x hx => (ihb hb.2 hright).bind fun w =>
      meets_and fun _ => ?_
    refine meets_ofExcept_bind fault fun y _ => meets_ofExcept_bind fault fun z _ => ?_
    refine meets_pure fun s hs => ⟨?_, hs⟩
    obtain rfl := Value.eq_scalar_of_asLiteral hx
    exact apply_describes hv z
  | pair a b iha ihb =>
    obtain ⟨hleft, hright⟩ := issues_pair_eq_nil_iff.1 h
    refine (iha hb.1 hleft).bind fun v => meets_and fun hv => ?_
    refine (ihb hb.2 hright).bind fun w => meets_and fun hw => ?_
    refine meets_pure fun s hs => ⟨?_, hs⟩
    rw [ty_pair hleft hright]
    exact Ty.describes_pair_iff.2 ⟨v, w, rfl, hv, hw⟩
  | nil => exact meets_pure fun s hs => ⟨⟨trivial, rfl⟩, hs⟩
  | fst e ih =>
    obtain ⟨he, hpair⟩ := issues_fst_eq_nil_iff.1 h
    refine (ih hb he).bind fun v => meets_and fun hv => ?_
    rw [ty_projections he hpair] at hv
    obtain ⟨x, y, rfl, hx, hy⟩ := Ty.describes_pair_iff.1 hv
    exact meets_pure fun s hs => ⟨hx, hs⟩
  | snd e ih =>
    obtain ⟨he, hpair⟩ := issues_snd_eq_nil_iff.1 h
    refine (ih hb he).bind fun v => meets_and fun hv => ?_
    rw [ty_projections he hpair] at hv
    obtain ⟨x, y, rfl, hx, hy⟩ := Ty.describes_pair_iff.1 hv
    exact meets_pure fun s hs => ⟨hy, hs⟩
  | cond a b c iha ihb ihc =>
    obtain ⟨htest, _, htrue, hfalse⟩ := issues_cond_eq_nil_iff.1 h
    obtain ⟨hty, hba, hbb, hbc⟩ := hb
    refine (iha hba htest).bind fun v => meets_and fun _ => meets_ofExcept_bind fault fun x _ => ?_
    cases x with
    | bool t =>
      cases t
      · have hc := ihc hbc hfalse
        rw [← hty] at hc
        exact hc
      · exact ihb hbb htrue
    | int _ | float _ => exact meets_throw trivial
  | read r e ih =>
    obtain ⟨hhas, harray, he⟩ := issues_read_eq_nil_iff.1 h
    refine meets_ofExcept_bind fault fun v hv => meets_ofExcept_bind fault fun b _ =>
      (ih hb he).bind fun w => meets_and fun _ => meets_ofExcept_bind fault fun i _ =>
      meets_ofExcept_bind fault fun x _ => meets_pure fun s hs => ⟨?_, hs⟩
    exact read_describes harray (describes_of_lookup henv hhas hv).1 x
  | param r e =>
    have hhas := (issues_param_eq_nil_iff.1 h).1
    refine meets_ofExcept fun s hs => ?_
    cases hv : env.lookup r with
    | ok v => exact ⟨describes_of_lookup henv hhas hv, hs⟩
    | error e => trivial

end Expr

end ArrayFusion
