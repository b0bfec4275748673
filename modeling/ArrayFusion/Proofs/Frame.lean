import ArrayFusion.Proofs.Outcome
set_option autoImplicit false

namespace ArrayFusion

structure Frame (σ : Type) where
  rel : σ → σ → Prop
  refl : ∀ s, rel s s
  trans : ∀ {s t u}, rel s t → rel t u → rel s u

namespace Action

variable {σ α β : Type} {F : Frame σ}

/-- The last state is related to the first one, whether there was a fault or not. -/
def Obeys (F : Frame σ) (x : Action σ α) : Prop := ∀ s, F.rel s (x.outcome s).2

theorem obeys_pure (a : α) : Obeys F (pure a : Action σ α) := F.refl

theorem outcome_observe (f : σ → Except Fault α) (s : σ) : (observe f).outcome s = (f s, s) := by
  simp only [outcome, observe, ofExcept]
  cases f s <;> rfl

theorem outcome_bind (x : Action σ α) (f : α → Action σ β) (s : σ) :
    (x >>= f).outcome s = match x.outcome s with
      | (.ok a, t) => (f a).outcome t
      | (.error e, t) => (.error e, t) := by
  simp only [outcome, bind, EStateM.bind]
  cases x s <;> rfl

theorem outcome_map (x : Action σ α) (f : α → β) (s : σ) :
    (do let a ← x ; pure (f a)).outcome s = ((x.outcome s).1.map f, (x.outcome s).2) := by
  rw [outcome_bind]
  cases hx : x.outcome s with
  | mk r t => cases r <;> rfl

theorem obeys_observe (f : σ → Except Fault α) : Obeys F (observe f) := by
  intro s
  rw [outcome_observe]
  exact F.refl s

theorem Obeys.bind {x : Action σ α} {f : α → Action σ β} (hx : Obeys F x)
    (hf : ∀ a, Obeys F (f a)) : Obeys F (x >>= f) := by
  intro s
  have hs := hx s
  rw [outcome_bind]
  cases h : x.outcome s with
  | mk r t =>
    rw [h] at hs
    cases r with
    | error e => exact hs
    | ok a => exact F.trans hs (hf a t)

theorem obeys_ofExcept_bind {x : Except Fault α} {f : α → Action σ β}
    (h : ∀ a, x = .ok a → Obeys F (f a)) : Obeys F (ofExcept x >>= f) := by
  cases x with
  | ok a => exact h a rfl
  | error e => exact F.refl

end Action

end ArrayFusion
