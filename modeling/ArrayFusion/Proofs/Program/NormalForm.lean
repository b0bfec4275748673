import ArrayFusion.Proofs.Program.Binding
set_option autoImplicit false

/-!
Programs without a binding that could be simplified, as far as their spine goes: from
binding to body and never into what is bound. Bindings that simplify as they are made keep
to this form, whatever they bind, and a program of this form is built again as it is. What
is bound gets smaller with every binding that floats out of it, while the body is reindexed
on the way: so the form has to survive that variables take the place of slots, which it does
as long as their types are those of the slots.
-/

namespace ArrayFusion

variable {Op : Type} {m : Reindexing}

def Pattern.LinesUp : Pattern → Tuple → Prop
  | .wild _, _ => True
  | .slot t, .ref r => r.ty = t
  | .pair p q, .pair a b => p.LinesUp a ∧ q.LinesUp b
  | _, _ => False

theorem Pattern.linesUp_iff {p : Pattern} {t : Tuple} :
    p.LinesUp t ↔ ∃ refs, p.substitution? t = some refs := by
  induction p generalizing t with
  | wild u => simp [LinesUp, substitution?]
  | slot u => cases t <;> simp [LinesUp, substitution?, eq_comm]
  | pair p q hp hq =>
    cases t with
    | unit => simp [LinesUp, substitution?]
    | ref r => simp [LinesUp, substitution?]
    | pair a b =>
      rw [LinesUp, hp, hq]
      constructor
      · rintro ⟨⟨left, hleft⟩, ⟨right, hright⟩⟩
        exact ⟨right ++ left, by simp [substitution?, hleft, hright]⟩
      · rintro ⟨refs, h⟩
        obtain ⟨left, hleft, h⟩ := Option.bind_eq_some_iff.1 h
        obtain ⟨right, hright, _⟩ := Option.bind_eq_some_iff.1 h
        exact ⟨⟨left, hleft⟩, ⟨right, hright⟩⟩

theorem Pattern.linesUp_image {p : Pattern} {t t' : Tuple} (ht : t.Image m t')
    (h : t.AllFree fun r => ∀ r', m r = some r' → r'.ty = r.ty) : p.LinesUp t' ↔ p.LinesUp t := by
  induction ht generalizing p with
  | unit => rfl
  | ref hr => cases p <;> simp [LinesUp, h _ hr]
  | pair _ _ iha ihb =>
    cases p with
    | wild u => rfl
    | slot u => rfl
    | pair p q => rw [LinesUp, LinesUp, iha h.1, ihb h.2]

theorem Reindexing.sink_ty {n : Nat} {r : Ref}
    (h : n ≤ r.index → ∀ r', m (r.lowered n) = some r' → r'.ty = r.ty) :
    ∀ r', m.sink n r = some r' → r'.ty = r.ty := by
  intro r' hr
  by_cases hlt : r.index < n
  · cases (sink_of_lt hlt).symm.trans hr
    rfl
  · have hle := Nat.not_lt.1 hlt
    obtain ⟨s, hs, rfl⟩ := sink_eq_some hr hle
    exact h hle s hs

theorem Reindexing.substitute_ty {p : Pattern} {refs : List Ref}
    (h : p.slotTys = refs.map Ref.ty) {r : Ref} (hr : p.Tags r) :
    ∀ r', substitute refs r = some r' → r'.ty = r.ty := by
  intro r' hs
  unfold substitute at hs
  cases hget : refs[r.index]? with
  | some s =>
    rw [hget] at hs
    cases hs
    exact (hr r'.ty (by rw [h, List.getElem?_map, hget, Option.map_some])).symm
  | none =>
    rw [hget] at hs
    cases hs
    rfl

namespace Program

/-- To bind the program to the pattern takes a binding of its own: the program is neither
a binding, nor a unit that nothing receives, nor references that line up with the slots. -/
def Settled (p : Pattern) : Program Op → Prop
  | .letIn _ _ _ => False
  | .ret t => ¬(p.size = 0 ∧ t = .unit) ∧ ¬p.LinesUp t
  | .exec _ _ | .compute _ | .alloc _ _ | .cond _ _ _ => True

def SpineNormal : Program Op → Prop
  | .letIn p bound body => bound.Settled p ∧ body.SpineNormal
  | .exec _ _ | .ret _ | .compute _ | .alloc _ _ | .cond _ _ _ => True

/-- The bindings of the spine made once more, those of what is bound and of the body first. -/
def rebuild : Program Op → Program Op
  | .letIn p bound body => letBind p bound.rebuild body.rebuild
  | other => other

section Stable

variable {p : Pattern} {t t' : Program Op}

theorem Settled.image (h : t.Settled p) (ht : t.Image m t')
    (hty : t.AllFree fun r => ∀ r', m r = some r' → r'.ty = r.ty) : t'.Settled p := by
  cases ht with
  | letIn _ _ => exact h.elim
  | ret ht =>
    refine ⟨fun hunit => h.1 ⟨hunit.1, ?_⟩, fun hline => h.2 ?_⟩
    · obtain ⟨_, rfl⟩ := hunit
      cases ht
      rfl
    · exact (Pattern.linesUp_image ht hty).1 hline
  | exec _ | compute _ | alloc _ | cond _ _ _ => trivial

theorem SpineNormal.reindex (h : t.SpineNormal) (ht : t.reindex m = some t')
    (hty : t.AllFree fun r => ∀ r', m r = some r' → r'.ty = r.ty) : t'.SpineNormal := by
  replace ht := reindex_eq_some_iff.1 ht
  induction ht with
  | letIn ha _ _ ihb =>
    exact ⟨h.1.image ha hty.1, ihb h.2 (hty.2.mono fun _ hr => Reindexing.sink_ty hr)⟩
  | exec _ | ret _ | compute _ | alloc _ | cond _ _ _ _ _ => trivial

theorem SpineNormal.lifted (h : t.SpineNormal) (above known : Nat) :
    (t.lifted above known).SpineNormal := by
  refine h.reindex (reindex_lift above known t) (AllFree.of_forall (fun r => ?_) t)
  refine Reindexing.sink_ty fun _ r' hr => ?_
  cases hr
  rfl

end Stable

section LetBind

variable {p : Pattern} {t bound body : Program Op}

theorem SpineNormal.letBind (hbody : body.SpineNormal)
    (h : (Program.letIn p bound body).Tagged) : (letBind p bound body).SpineNormal := by
  induction bound generalizing p body with
  | exec _ _ | compute _ | alloc _ _ | cond _ _ _ _ _ => exact ⟨trivial, hbody⟩
  | letIn q a b iha ihb =>
    -- The rest is bound first, so that what floats out goes around a body in normal form.
    obtain ⟨ha, hrest, hq⟩ := h.float
    rw [Program.letBind]
    exact iha (ihb (hbody.lifted q.size p.size) hrest) ⟨ha, hrest.letBind, hq.letBind⟩
  | ret t =>
    rw [Program.letBind]
    split
    · exact hbody
    · rename_i hunit
      split
      · rename_i refs hs
        refine hbody.reindex (reindex_eq_rename _ body) (h.2.2.mono fun r hr => ?_)
        exact Reindexing.substitute_ty (Pattern.slotTys_substitution? hs) hr
      · rename_i hnone
        refine ⟨⟨fun hu => hunit ?_, fun hline => ?_⟩, hbody⟩
        · simp [Pattern.discards, hu]
        · obtain ⟨refs, hs⟩ := Pattern.linesUp_iff.1 hline
          rw [hnone] at hs
          cases hs

theorem letBind_of_settled (h : bound.Settled p) : letBind p bound body = .letIn p bound body := by
  cases bound with
  | letIn q a b => exact h.elim
  | exec _ _ | compute _ | alloc _ _ | cond _ _ _ => rfl
  | ret t =>
    have hunit : ¬(p.discards && t = .unit) := by simpa [Pattern.discards] using h.1
    have hnone : p.substitution? t = none :=
      Option.eq_none_iff_forall_ne_some.2 fun refs hs => h.2 (Pattern.linesUp_iff.2 ⟨refs, hs⟩)
    rw [letBind, if_neg hunit, hnone]

theorem Settled.rebuild_eq (h : t.Settled p) : t.rebuild = t := by
  cases t with
  | letIn q a b => exact h.elim
  | exec _ _ | ret _ | compute _ | alloc _ _ | cond _ _ _ => rfl

theorem SpineNormal.rebuild_eq (h : t.SpineNormal) : t.rebuild = t := by
  induction t with
  | letIn p a b _ ihb => rw [rebuild, h.1.rebuild_eq, ihb h.2, letBind_of_settled h.1]
  | exec _ _ | ret _ | compute _ | alloc _ _ | cond _ _ _ _ _ => rfl

end LetBind

/-- A simplified binding is in normal form if its body is, whatever it binds, and nothing
in normal form is simplified any further. -/
theorem letBind_spineNormal :
    (∀ (p : Pattern) (bound body : Program Op), (Program.letIn p bound body).Tagged →
      body.SpineNormal → (letBind p bound body).SpineNormal) ∧
    ∀ t : Program Op, t.SpineNormal → t.rebuild = t :=
  ⟨fun _ _ _ h hbody => hbody.letBind h, fun _ h => h.rebuild_eq⟩

/-- A literal bound by way of another slot: one binding is left of the two. -/
theorem letBind_spineNormal_nested :
    let i : Ty := .int 64
    let literal : Program Kernel := .compute (.const (.int 2))
    let bound : Program Kernel := .letIn (.slot i) literal (.ret (.ref ⟨0, i⟩))
    let body : Program Kernel :=
      .letIn (.slot i) (.compute (.param ⟨0, i⟩ .nil)) (.ret (.ref ⟨0, i⟩))
    let built : Program Kernel := .letIn (.slot i) literal body
    (Program.letIn (.slot i) bound body).Tagged ∧ body.SpineNormal ∧
      letBind (.slot i) bound body = built ∧ built.SpineNormal ∧ built.rebuild = built := by
  intro i literal bound body built
  have hslot : (Pattern.slot i).Tags ⟨0, i⟩ := by
    rintro _ ⟨⟩
    rfl
  have htag : (Program.letIn (.slot i) bound body).Tagged :=
    ⟨⟨trivial, trivial, hslot⟩, ⟨trivial, trivial, hslot⟩, ⟨hslot, trivial⟩,
      fun h => absurd h (by decide)⟩
  have hbody : body.SpineNormal := ⟨trivial, trivial⟩
  have hbuilt : built.SpineNormal := letBind_spineNormal.1 (.slot i) bound body htag hbody
  exact ⟨htag, hbody, rfl, hbuilt, letBind_spineNormal.2 built hbuilt⟩

end Program

end ArrayFusion
