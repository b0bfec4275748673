import ArrayFusion.Action
set_option autoImplicit false

/-!
Two computations side by side. Where the first one gives a result so does the
second one; a fault of the first is one of the second as well if faults count,
and otherwise leaves it free to do anything.
-/

namespace ArrayFusion

variable {σ τ α β γ δ : Type} {faults : Prop}

def CoupledAnswers (faults : Prop) (related : α → β → Prop) :
    Except Fault α → Except Fault β → Prop
  | .ok a, .ok b => related a b
  | .error e, .error e' => faults → e = e'
  | .ok _, .error _ => False
  | .error _, .ok _ => ¬faults

namespace CoupledAnswers

variable {related : α → β → Prop} {x : Except Fault α} {y : Except Fault β}

theorem of_eq {x y : Except Fault α} (h : x = y) : CoupledAnswers faults Eq x y := by
  subst h
  cases x with
  | ok a => exact rfl
  | error e => exact fun _ => rfl

theorem mono {related' : α → β → Prop} (h : CoupledAnswers faults related x y)
    (hr : ∀ a b, related a b → related' a b) : CoupledAnswers faults related' x y := by
  cases x <;> cases y
  · exact h
  · exact h
  · exact h
  · exact hr _ _ h

theorem eq_ok {x y : Except Fault α} (h : CoupledAnswers faults Eq x y) {a : α}
    (hx : x = .ok a) : y = .ok a := by
  subst hx
  cases y with
  | ok b => rw [show a = b from h]
  | error e => exact h.elim

theorem bind {related' : γ → δ → Prop} {f : α → Except Fault γ} {g : β → Except Fault δ}
    (h : CoupledAnswers faults related x y)
    (hf : ∀ a b, related a b → CoupledAnswers faults related' (f a) (g b)) :
    CoupledAnswers faults related' (x >>= f) (y >>= g) := by
  cases x with
  | error e =>
    cases y with
    | error e' => exact h
    | ok b =>
      simp only [Bind.bind, Except.bind]
      cases hg : g b with
      | error e' => exact fun hfaults => (h hfaults).elim
      | ok d => exact h
  | ok a =>
    cases y with
    | error e' => exact h.elim
    | ok b => exact hf a b h

end CoupledAnswers

namespace Action

/-- From states that stand in `pre` the computations reach states and results that
stand in `post`, or states that stand in `broken` if there was a fault. -/
def Coupled (faults : Prop) (pre : σ → τ → Prop) (post : α → β → σ → τ → Prop)
    (broken : σ → τ → Prop) (x : Action σ α) (y : Action τ β) : Prop :=
  ∀ s t, pre s t →
    match x s, y t with
    | .ok a s', .ok b t' => post a b s' t'
    | .error e s', .error e' t' => faults → e = e' ∧ broken s' t'
    | .ok _ _, .error _ _ => False
    | .error _ _, .ok _ _ => ¬faults

variable {pre broken : σ → τ → Prop} {post : α → β → σ → τ → Prop} {x : Action σ α}
  {y : Action τ β}

theorem coupled_pure {a : α} {b : β} (h : ∀ s t, pre s t → post a b s t) :
    Coupled faults pre post broken (pure a) (pure b) := h

theorem Coupled.mono {pre' broken' : σ → τ → Prop} {post' : α → β → σ → τ → Prop}
    (h : Coupled faults pre post broken x y) (hpre : ∀ s t, pre' s t → pre s t)
    (hpost : ∀ a b s t, post a b s t → post' a b s t) (hbroken : ∀ s t, broken s t → broken' s t) :
    Coupled faults pre' post' broken' x y := by
  intro s t hp
  have hxy := h s t (hpre s t hp)
  cases hs : x s <;> cases ht : y t <;> simp only [hs, ht] at hxy ⊢
  · exact hpost _ _ _ _ hxy
  · exact hxy
  · exact fun hfaults => ⟨(hxy hfaults).1, hbroken _ _ (hxy hfaults).2⟩

theorem Coupled.bind {mid : α → β → σ → τ → Prop} {post : γ → δ → σ → τ → Prop}
    {f : α → Action σ γ} {g : β → Action τ δ} (hx : Coupled faults pre mid broken x y)
    (hf : ∀ a b, Coupled faults (mid a b) post broken (f a) (g b)) :
    Coupled faults pre post broken (x >>= f) (y >>= g) := by
  intro s t hp
  have hxy := hx s t hp
  simp only [Bind.bind, EStateM.bind]
  cases hs : x s with
  | error e s' =>
    cases ht : y t with
    | error e' t' => simpa only [hs, ht] using hxy
    | ok b t' =>
      simp only [hs, ht] at hxy ⊢
      cases hg : g b t' with
      | error e' t'' => exact fun hfaults => (hxy hfaults).elim
      | ok d t'' => exact hxy
  | ok a s' =>
    cases ht : y t with
    | error e' t' =>
      simp only [hs, ht] at hxy
    | ok b t' =>
      simp only [hs, ht] at hxy
      exact hf a b s' t' hxy

theorem Coupled.bind_eq {mid : α → σ → τ → Prop} {post : γ → δ → σ → τ → Prop} {y : Action τ α}
    {f : α → Action σ γ} {g : α → Action τ δ}
    (hx : Coupled faults pre (fun a b s t => a = b ∧ mid a s t) broken x y)
    (hf : ∀ a, Coupled faults (mid a) post broken (f a) (g a)) :
    Coupled faults pre post broken (x >>= f) (y >>= g) := by
  refine hx.bind fun a b s t hm => ?_
  obtain ⟨rfl, hm⟩ := hm
  exact hf a s t hm

theorem coupled_observe {f : σ → Except Fault α} {g : τ → Except Fault β}
    (h : ∀ s t, pre s t → CoupledAnswers faults (fun a b => post a b s t) (f s) (g t))
    (hb : ∀ s t, pre s t → broken s t) :
    Coupled faults pre post broken (observe f) (observe g) := by
  intro s t hp
  have hst := h s t hp
  unfold observe ofExcept
  cases hf : f s <;> cases hg : g t <;> rw [hf, hg] at hst
  · exact fun hfaults => ⟨hst hfaults, hb s t hp⟩
  · exact hst
  · exact hst
  · exact hst

/-- With one answer on both sides, what it tells about the state may be used later on. -/
theorem coupled_observe_eq {f : σ → Except Fault α} {g : τ → Except Fault α}
    (h : ∀ s t, pre s t → f s = g t) (hb : ∀ s t, pre s t → broken s t) :
    Coupled faults pre (fun a b s t => a = b ∧ pre s t ∧ f s = .ok a) broken
      (observe f) (observe g) := by
  refine coupled_observe (fun s t hp => ?_) hb
  rw [← h s t hp]
  cases hf : f s with
  | ok a => exact ⟨rfl, hp, rfl⟩
  | error e => exact fun _ => rfl

/-- Started alike, the second computation has the results and the states of the first one. -/
def Kept (faults : Prop) (x y : Action σ α) : Prop :=
  Coupled faults Eq (fun a b s t => a = b ∧ s = t) Eq x y

section Kept

variable {x y : Action σ α}

theorem kept_refl (x : Action σ α) : Kept faults x x := by
  rintro s _ rfl
  cases x s with
  | ok a s' => exact ⟨rfl, rfl⟩
  | error e s' => exact fun _ => ⟨rfl, rfl⟩

theorem Kept.bind {f g : α → Action σ β} (hx : Kept faults x y)
    (hf : ∀ a, Kept faults (f a) (g a)) : Kept faults (x >>= f) (y >>= g) :=
  Coupled.bind_eq hx hf

theorem Kept.trans {z : Action σ α} (hxy : Kept faults x y) (hyz : Kept faults y z) :
    Kept faults x z := by
  rintro s _ rfl
  have h₁ := hxy s s rfl
  have h₂ := hyz s s rfl
  cases hx : x s <;> cases hy : y s <;> cases hz : z s <;> simp only [hx, hy, hz] at h₁ h₂ ⊢
  case ok.ok.ok => exact ⟨h₁.1.trans h₂.1, h₁.2.trans h₂.2⟩
  case error.error.error =>
    exact fun hf => ⟨(h₁ hf).1.trans (h₂ hf).1, (h₁ hf).2.trans (h₂ hf).2⟩
  case error.error.ok => exact h₂
  case error.ok.ok => exact h₁

theorem kept_ofExcept {x y : Except Fault α} (h : CoupledAnswers faults Eq x y) :
    Kept faults (ofExcept x : Action σ α) (ofExcept y) := by
  refine coupled_observe (f := fun _ => x) (g := fun _ => y) (fun s t hp => ?_) fun _ _ hp => hp
  exact h.mono fun a b hab => ⟨hab, hp⟩

theorem kept_ofExcept_bind {x : Except Fault α} {f g : α → Action σ β}
    (h : ∀ a, x = .ok a → Kept faults (f a) (g a)) :
    Kept faults (ofExcept x >>= f) (ofExcept x >>= g) := by
  cases x with
  | ok a => exact h a rfl
  | error e => exact kept_refl _

theorem kept_of_ofExcept_bind (hn : ¬faults) {x : Except Fault α} {f : α → Action σ β}
    {y : Action σ β} (h : ∀ a, x = .ok a → Kept faults (f a) y) :
    Kept faults (ofExcept x >>= f) y := by
  cases x with
  | ok a => exact h a rfl
  | error e =>
    intro s t _
    have hs : (ofExcept (.error e) >>= f) s = .error e s := rfl
    rw [hs]
    cases y t with
    | ok b t' => exact hn
    | error e' t' => exact fun hf => (hn hf).elim

theorem Kept.afterwards (f : σ → σ) (h : Kept faults x y) :
    Kept faults (Action.afterwards f x) (Action.afterwards f y) := by
  rintro s _ rfl
  have hs := h s s rfl
  unfold Action.afterwards
  cases hx : x s <;> cases hy : y s <;> simp only [hx, hy] at hs ⊢
  case ok.ok => exact ⟨hs.1, congrArg f hs.2⟩
  case error.error => exact fun hf => ⟨(hs hf).1, congrArg f (hs hf).2⟩
  case error.ok => exact hs

theorem Kept.answer (h : Kept faults x y) {s : σ} :
    CoupledAnswers faults Eq (x.answer s) (y.answer s) := by
  have hs := h s s rfl
  unfold Action.answer
  cases hx : x s <;> cases hy : y s <;> simp only [hx, hy] at hs ⊢
  case ok.ok => exact hs.1
  case error.error => exact fun hf => (hs hf).1
  case error.ok => exact hs

theorem Kept.eq_ok (h : Kept faults x y) {s s' : σ} {a : α} (hx : x s = .ok a s') :
    y s = .ok a s' := by
  have hs := h s s rfl
  cases hy : y s <;> simp only [hx, hy] at hs
  rw [hs.1, hs.2]

theorem Kept.outcome_eq (h : Kept True x y) (s : σ) : y.outcome s = x.outcome s := by
  have hs := h s s rfl
  unfold Action.outcome
  cases hx : x s <;> cases hy : y s <;> simp only [hx, hy] at hs ⊢
  case ok.ok => rw [hs.1, hs.2]
  case error.error => rw [(hs trivial).1, (hs trivial).2]
  case error.ok => exact (hs trivial).elim

end Kept

theorem Coupled.exists_outcome {related : σ → τ → Prop} {x : Action σ Unit} {y : Action τ Unit}
    (h : Coupled True pre (fun _ _ => related) related x y) {s : σ} {t : τ} (hp : pre s t) :
    ∃ r s' t', x.outcome s = (r, s') ∧ y.outcome t = (r, t') ∧ related s' t' := by
  have hxy := h s t hp
  unfold outcome
  cases hs : x s <;> cases ht : y t <;> simp only [hs, ht] at hxy
  · exact ⟨_, _, _, rfl, rfl, hxy⟩
  · exact (hxy trivial).elim
  · obtain ⟨rfl, hr⟩ := hxy trivial
    exact ⟨_, _, _, rfl, rfl, hr⟩

theorem outcome_afterwards {f : σ → σ} {s s' : σ} {r : Except Fault α}
    (h : x.outcome s = (r, s')) : (afterwards f x).outcome s = (r, f s') := by
  unfold outcome afterwards at *
  cases hx : x s <;> simp_all

theorem afterwards_id (x : Action σ α) : afterwards id x = x := by
  funext s
  unfold afterwards
  cases x s <;> rfl

theorem afterwards_comp (f g : σ → σ) (x : Action σ α) :
    afterwards (g ∘ f) x = afterwards g (afterwards f x) := by
  funext s
  unfold afterwards
  cases x s <;> rfl

end Action

end ArrayFusion
