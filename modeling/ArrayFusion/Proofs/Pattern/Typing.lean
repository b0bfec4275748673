import ArrayFusion.Proofs.Pattern.Destructuring
import ArrayFusion.Proofs.Pattern.Rebuilding
import ArrayFusion.Proofs.Program.Issues
set_option autoImplicit false

namespace ArrayFusion

def TyCon.arity : TyCon → Nat
  | .bool | .int _ | .uint _ | .float _ | .unit => 0
  | .array _ => 1
  | .pair | .arrow => 2

/-- Every constructor has the arguments that its helper gives it. -/
inductive Ty.WellFormed : Ty → Prop where
  | con (c : TyCon) (args : List Ty) (length : args.length = c.arity)
      (wellFormed : ∀ t ∈ args, t.WellFormed) : Ty.WellFormed (.con c args)
  | var (n : Nat) : Ty.WellFormed (.var n)

theorem Ty.WellFormed.components {a b : Ty} (h : (Ty.con .pair [a, b]).WellFormed) :
    a.WellFormed ∧ b.WellFormed := by
  cases h with
  | con _ _ _ h => simpa using h

theorem Ty.WellFormed.eq_unit {args : List Ty} (h : (Ty.con .unit args).WellFormed) :
    Ty.con .unit args = .unit := by
  cases h with
  | con _ _ hlen _ => rw [List.length_eq_zero_iff.1 hlen, Ty.unit]

namespace Pattern

theorem ty_ofTy (t : Ty) : (ofTy t).ty = t := by
  induction t using ofTy.induct with
  | case1 a b ha hb => simp [ofTy, ty, ha, hb, Ty.pair]
  | case2 args => simp [ofTy, ty]
  | case3 t hp hu => rw [ofTy.eq_3 t hp hu, ty]

theorem ty_tupleUnder_ofTy {t : Ty} (h : t.WellFormed) {above : Nat} {u : Tuple}
    (hu : (ofTy t).tupleUnder above = some u) : u.ty = t := by
  induction t using ofTy.induct generalizing above u with
  | case1 a b ha hb =>
    obtain ⟨ua, ub, hua, hub, rfl⟩ := tupleUnder_pair.1 hu
    rw [Tuple.ty, ha h.components.1 hua, hb h.components.2 hub, Ty.pair]
  | case2 args =>
    cases hu
    exact h.eq_unit.symm
  | case3 t hp hu' =>
    rw [ofTy.eq_3 t hp hu'] at hu
    cases hu
    rfl

theorem has_tupleUnder {p : Pattern} {above : Nat} {u : Tuple}
    (hu : p.tupleUnder above = some u) {us : Context} (hus : us.length = above) (Γ : Context) :
    u.AllFree (Context.Has (us ++ Γ.enter p)) := by
  induction p generalizing above u us Γ with
  | wild t =>
    obtain ⟨-, hu⟩ := Option.ite_none_right_eq_some.1 hu
    cases hu
    trivial
  | slot t =>
    cases hu
    simp [Tuple.AllFree, Context.Has, Context.enter, slotTys, ← hus]
  | pair l r hl hr =>
    obtain ⟨ul, ur, hul, hur, rfl⟩ := tupleUnder_pair.1 hu
    have hlen : (us ++ r.slotTys).length = above + r.size := by simp [hus]
    have hleft := hl hul hlen Γ
    have hright := hr hur hus (Γ.enter l)
    simp only [Context.enter, slotTys, List.append_assoc] at hleft hright ⊢
    exact ⟨hleft, hright⟩

theorem slotTys_slotMap {p q : Pattern} {slots : List (Option Nat)}
    (h : p.slotMap q = .ok slots) (i j : Nat) (hij : slots[i]? = some (some j)) :
    q.slotTys[j]? = p.slotTys[i]? := by
  replace h := rebuilds_of_slotMap h
  induction h generalizing i j with
  | wild t => cases hij
  | kept t =>
    cases i <;> cases hij
    rfl
  | dropped t => cases i <;> cases hij
  | @pair _ _ r r' _ _ _ hrs hl hr =>
    have hlen := hrs.length_eq.trans r.length_slotTys.symm
    rw [← length_slotTys r'] at hij
    exact getElem?_append_moved hl hr hlen i j hij

theorem enter_of_discards {p : Pattern} (h : p.discards) (Γ : Context) : Γ.enter p = Γ := by
  have hlen : p.slotTys.length = 0 := by rw [length_slotTys, beq_iff_eq.1 h]
  rw [Context.enter, List.length_eq_zero_iff.1 hlen, List.nil_append]

end Pattern

end ArrayFusion
