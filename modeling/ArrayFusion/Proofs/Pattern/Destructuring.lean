import ArrayFusion.Proofs.Program.Environment
set_option autoImplicit false

namespace ArrayFusion

/-- The value is a pair wherever the type is one of two components, and unit wherever
the type is unit. -/
def Ty.Splits : Ty → Value → Prop
  | .con .pair [a, b], v => ∃ x y, v = .pair x y ∧ a.Splits x ∧ b.Splits y
  | .con .unit _, v => v = .unit
  | _, _ => True

namespace Pattern

theorem exists_slots_ofTy {t : Ty} {v : Value} (h : t.Splits v) :
    ∃ vs, (ofTy t).slots v = .ok vs := by
  induction t using ofTy.induct generalizing v with
  | case1 a b ha hb =>
    obtain ⟨x, y, rfl, hx, hy⟩ := h
    obtain ⟨l, hl⟩ := ha hx
    obtain ⟨r, hr⟩ := hb hy
    exact ⟨r ++ l, slots_pair.2 ⟨l, r, hl, hr, rfl⟩⟩
  | case2 args => exact ⟨[], rfl⟩
  | case3 t hp hu =>
    rw [ofTy.eq_3 t hp hu]
    exact ⟨[v], rfl⟩

theorem exists_tupleUnder_ofTy (t : Ty) (above : Nat) :
    ∃ u, (ofTy t).tupleUnder above = some u := by
  induction t using ofTy.induct generalizing above with
  | case1 a b ha hb =>
    obtain ⟨u, hu⟩ := ha (above + (ofTy b).size)
    obtain ⟨w, hw⟩ := hb above
    exact ⟨.pair u w, tupleUnder_pair.2 ⟨u, w, hu, hw, rfl⟩⟩
  | case2 args => exact ⟨.unit, rfl⟩
  | case3 t hp hu =>
    rw [ofTy.eq_3 t hp hu]
    exact ⟨.ref ⟨above, t⟩, rfl⟩

/-- The slots lie under those of `ws` and above those of `env`. -/
theorem value_tupleUnder_ofTy {t : Ty} {v : Value} {vs : Stack} (h : t.Splits v)
    (hvs : (ofTy t).slots v = .ok vs) {above : Nat} {u : Tuple}
    (hu : (ofTy t).tupleUnder above = some u) {ws : Stack} (hws : ws.length = above) (env : Stack) :
    u.value (ws ++ (vs ++ env)) = .ok v := by
  induction t using ofTy.induct generalizing v vs above u ws env with
  | case1 a b ha hb =>
    obtain ⟨x, y, rfl, hx, hy⟩ := h
    obtain ⟨l, r, hl, hr, rfl⟩ := slots_pair.1 hvs
    obtain ⟨ua, ub, hua, hub, rfl⟩ := tupleUnder_pair.1 hu
    have hlen : (ws ++ r).length = above + (ofTy b).size := by
      rw [List.length_append, hws, length_slots hr]
    have hleft := ha hx hl hua hlen env
    have hright := hb hy hr hub hws (l ++ env)
    rw [List.append_assoc] at hleft ⊢
    exact bind_eq_ok.2 ⟨x, hleft, bind_eq_ok.2 ⟨y, hright, rfl⟩⟩
  | case2 args =>
    cases hu
    cases h
    rfl
  | case3 t hp hu' =>
    rw [ofTy.eq_3 t hp hu'] at hvs hu
    cases hvs
    cases hu
    refine Stack.lookup_eq_ok_iff.2 ?_
    rw [List.getElem?_append_right (Nat.le_of_eq hws), hws, Nat.sub_self]
    rfl

end Pattern

end ArrayFusion
