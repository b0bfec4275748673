import ArrayFusion.Proofs.Pattern.Renumbering
import ArrayFusion.Proofs.Pattern.Typing
set_option autoImplicit false

namespace ArrayFusion

def Context.refsUnder (Γ : Context) (above : Nat) : List Ref :=
  (Γ.zipIdx above).map fun slot => ⟨slot.2, slot.1⟩

namespace Context

theorem refsUnder_append (Γ Δ : Context) (above : Nat) :
    refsUnder (Γ ++ Δ) above = refsUnder Γ above ++ refsUnder Δ (above + Γ.length) := by
  rw [refsUnder, List.zipIdx_append, List.map_append, refsUnder, refsUnder]

theorem index_refsUnder (Γ : Context) (above : Nat) :
    (Γ.refsUnder above).map Ref.index = List.range' above Γ.length := by
  rw [refsUnder, List.map_map, ← List.zipIdx_map_snd above Γ]
  rfl

theorem ty_refsUnder (Γ : Context) (above : Nat) : (Γ.refsUnder above).map Ref.ty = Γ := by
  rw [refsUnder, List.map_map]
  exact List.zipIdx_map_fst above Γ

end Context

namespace Pattern

/-- The left part of a pair is bound first, so it lies under the right one, and its references
come before those with the smaller indices. -/
theorem refs_tupleUnder {p : Pattern} {above : Nat} {u : Tuple}
    (hu : p.tupleUnder above = some u) : u.refs = (Context.refsUnder p.slotTys above).reverse := by
  induction p generalizing above u with
  | wild t =>
    obtain ⟨-, hu⟩ := Option.ite_none_right_eq_some.1 hu
    cases hu
    rfl
  | slot t =>
    cases hu
    rfl
  | pair l r hl hr =>
    obtain ⟨ul, ur, hul, hur, rfl⟩ := tupleUnder_pair.1 hu
    rw [Tuple.refs, hl hul, hr hur, slotTys, Context.refsUnder_append, List.reverse_append,
      length_slotTys]

theorem index_tuple? {p : Pattern} {u : Tuple} (hu : p.tuple? = some u) :
    u.refs.map Ref.index = (List.range p.size).reverse := by
  rw [refs_tupleUnder hu, List.map_reverse, Context.index_refsUnder, length_slotTys,
    List.range_eq_range']

theorem ty_tuple? {p : Pattern} {u : Tuple} (hu : p.tuple? = some u) :
    u.refs.map Ref.ty = p.slotTys.reverse := by
  rw [refs_tupleUnder hu, List.map_reverse, Context.ty_refsUnder]

theorem splits_of_value_tupleUnder_ofTy {t : Ty} {above : Nat} {u : Tuple}
    (hu : (ofTy t).tupleUnder above = some u) {s : Stack} {v : Value} (hv : u.value s = .ok v) :
    t.Splits v := by
  induction t using ofTy.induct generalizing above u v with
  | case1 a b ha hb =>
    obtain ⟨ua, ub, hua, hub, rfl⟩ := tupleUnder_pair.1 hu
    obtain ⟨x, hx, hv⟩ := bind_eq_ok.1 hv
    obtain ⟨y, hy, hv⟩ := bind_eq_ok.1 hv
    cases hv
    exact ⟨x, y, rfl, ha hua hx, hb hub hy⟩
  | case2 args =>
    cases hu
    cases hv
    rfl
  | case3 t hp hu' =>
    -- A type that is taken apart no further says nothing of its values.
    rw [Ty.Splits.eq_3 t v hp hu']
    trivial

theorem splits_iff_recovered {t : Ty} {u : Tuple} (hu : (ofTy t).tuple? = some u) (v : Value)
    (s : Stack) :
    t.Splits v ↔ ∃ s', (ofTy t).bind v s = .ok () s' ∧ u.value s' = .ok v := by
  constructor
  · intro h
    obtain ⟨vs, hvs⟩ := exists_slots_ofTy h
    have hback := value_tupleUnder_ofTy h hvs hu (rfl : [].length = 0) s
    exact ⟨vs ++ s, bind_eq_ok_iff.2 ⟨vs, hvs, rfl⟩, hback⟩
  · rintro ⟨s', -, hback⟩
    exact splits_of_value_tupleUnder_ofTy hu hback

/-- The pattern of a type binds values of that type and has a tuple. The tuple counts its
slots down to the topmost one, in the order in which they are bound, and gives back every
value that is a pair and unit where the type is, and no other. -/
theorem ofTy_lossless (t : Ty) :
    (ofTy t).ty = t ∧ ∃ u, (ofTy t).tuple? = some u ∧
      u.refs.map Ref.index = (List.range (ofTy t).size).reverse ∧
      u.refs.map Ref.ty = (ofTy t).slotTys.reverse ∧
      ∀ (v : Value) (s : Stack),
        t.Splits v ↔ ∃ s', (ofTy t).bind v s = .ok () s' ∧ u.value s' = .ok v := by
  obtain ⟨u, hu⟩ := exists_tupleUnder_ofTy t 0
  exact ⟨ty_ofTy t, u, hu, index_tuple? hu, ty_tuple? hu, splits_iff_recovered hu⟩

/-- A unit inside takes no slot, and the references on either side of it are numbered on. -/
example :
    let i : Ty := .int 64
    (ofTy (.pair (.pair i .bool) (.pair .unit i))).tuple? =
      some (.pair (.pair (.ref ⟨2, i⟩) (.ref ⟨1, .bool⟩)) (.pair .unit (.ref ⟨0, i⟩))) := rfl

end Pattern

end ArrayFusion
