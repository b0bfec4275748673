import ArrayFusion.Action
set_option autoImplicit false

namespace ArrayFusion

theorem bind_eq_ok {α β : Type} {x : Except Fault α} {f : α → Except Fault β} {b : β} :
    (x >>= f) = .ok b ↔ ∃ a, x = .ok a ∧ f a = .ok b := by
  cases x <;> simp [bind, Except.bind]

theorem mapM_cons_eq_ok {α β : Type} {f : α → Except Fault β} {a : α} {l : List α} {bs : List β} :
    (a :: l).mapM f = .ok bs ↔ ∃ b bs', f a = .ok b ∧ l.mapM f = .ok bs' ∧ b :: bs' = bs := by
  rw [List.mapM_cons]
  simp [bind_eq_ok, pure, Except.pure]

theorem ite_eq_ok {α : Type} {c : Prop} [Decidable c] {x : Except Fault α} {e : Fault} {a : α} :
    (if c then x else .error e) = .ok a ↔ c ∧ x = .ok a := by
  by_cases h : c <;> simp [h]

theorem toOption_bind {α β : Type} (x : Except Fault α) (f : α → Except Fault β) :
    (x >>= f).toOption = x.toOption.bind fun a => (f a).toOption := by
  cases x <;> rfl

theorem Action.ofExcept_eq_ok_iff {σ α : Type} {x : Except Fault α} {s s' : σ} {a : α} :
    (Action.ofExcept x : Action σ α) s = .ok a s' ↔ x = .ok a ∧ s = s' := by
  cases x <;> simp [Action.ofExcept]

theorem Action.get_bind {σ α : Type} (f : σ → Action σ α) (s : σ) : (get >>= f) s = f s s := rfl

end ArrayFusion
