import ArrayFusion.Action
set_option autoImplicit false

namespace ArrayFusion

variable {σ τ α β : Type} {E : Fault → Prop}

def Answers (Q : α → Prop) (E : Fault → Prop) : Except Fault α → Prop
  | .ok a => Q a
  | .error e => E e

namespace Answers

variable {P Q : α → Prop} {x : Except Fault α}

theorem mono (h : Answers P E x) (hQ : ∀ a, P a → Q a) : Answers Q E x := by
  cases x with
  | ok a => exact hQ a h
  | error e => exact h

theorem bind {R : β → Prop} {f : α → Except Fault β} (h : Answers Q E x)
    (hf : ∀ a, Q a → Answers R E (f a)) : Answers R E (x >>= f) := by
  cases x with
  | ok a => exact hf a h
  | error e => exact h

theorem any (x : Except Fault α) : Answers (fun _ => True) (fun _ => True) x := by
  cases x <;> trivial

end Answers

namespace Action

/-- From a state with `P` there is a result that has `Q` together with the state it
leaves, or a fault with `E`. -/
def Meets (P : σ → Prop) (Q : α → σ → Prop) (E : Fault → Prop) (x : Action σ α) : Prop :=
  ∀ s, P s → match x s with
    | .ok a t => Q a t
    | .error e _ => E e

variable {P P' : σ → Prop} {Q Q' : α → σ → Prop} {x : Action σ α}

theorem meets_pure {a : α} (h : ∀ s, P s → Q a s) : Meets P Q E (pure a) := h

theorem meets_throw {e : Fault} (h : E e) : Meets P Q E (throw e) := fun _ _ => h

theorem meets_observe {f : σ → Except Fault α} (h : ∀ s, P s → Answers (Q · s) E (f s)) :
    Meets P Q E (observe f) := by
  intro s hs
  have hf := h s hs
  unfold observe ofExcept
  cases hx : f s with
  | ok a =>
    rw [hx] at hf
    exact hf
  | error e =>
    rw [hx] at hf
    exact hf

theorem meets_ofExcept {y : Except Fault α} (h : ∀ s, P s → Answers (Q · s) E y) :
    Meets P Q E (ofExcept y) := meets_observe h

theorem meets_any : Meets P (fun _ _ => True) (fun _ => True) x := by
  intro s _
  cases x s <;> trivial

theorem meets_and {c : Prop} (h : c → Meets P Q E x) : Meets (fun s => c ∧ P s) Q E x :=
  fun s hs => h hs.1 s hs.2

theorem meets_ofExcept_bind {R : β → σ → Prop} {y : Except Fault α} {f : α → Action σ β}
    (hE : ∀ e, E e) (h : ∀ a, y = .ok a → Meets P R E (f a)) :
    Meets P R E (ofExcept y >>= f) := by
  cases y with
  | ok a => exact h a rfl
  | error e => exact fun _ _ => hE e

namespace Meets

theorem mono (h : Meets P Q E x) (hP : ∀ s, P' s → P s) (hQ : ∀ a s, Q a s → Q' a s) :
    Meets P' Q' E x := by
  intro s hs
  have hx := h s (hP s hs)
  cases hr : x s with
  | ok a t =>
    rw [hr] at hx
    exact hQ a t hx
  | error e t =>
    rw [hr] at hx
    exact hx

theorem bind {R : β → σ → Prop} {f : α → Action σ β} (h : Meets P Q E x)
    (hf : ∀ a, Meets (Q a) R E (f a)) : Meets P R E (x >>= f) := by
  intro s hs
  have hx := h s hs
  simp only [Bind.bind, EStateM.bind]
  cases hr : x s with
  | ok a t =>
    rw [hr] at hx
    exact hf a t hx
  | error e t =>
    rw [hr] at hx
    exact hx

theorem afterwards {f : σ → σ} (h : Meets P Q E x) (hf : ∀ a s, Q a s → Q' a (f s)) :
    Meets P Q' E (Action.afterwards f x) := by
  intro s hs
  have hx := h s hs
  unfold Action.afterwards
  cases hr : x s with
  | ok a t =>
    rw [hr] at hx
    exact hf a t hx
  | error e t =>
    rw [hr] at hx
    exact hx

theorem onPart {P : τ → Prop} {Q : α → τ → Prop} {view : τ → σ} {put : σ → τ → τ}
    (h : ∀ t, P t → Meets (· = view t) (fun a s => Q a (put s t)) E x) :
    Meets P Q E (Action.onPart view put x) := by
  intro t ht
  have hx := h t ht (view t) rfl
  unfold Action.onPart
  cases hr : x (view t) with
  | ok a s =>
    rw [hr] at hx
    exact hx
  | error e s =>
    rw [hr] at hx
    exact hx

theorem answer (h : Meets P Q E x) {s : σ} (hs : P s) {R : α → Prop}
    (hR : ∀ a t, Q a t → R a) : Answers R E (x.answer s) := by
  have hx := h s hs
  unfold Action.answer
  cases hr : x s with
  | ok a t =>
    rw [hr] at hx
    exact hR a t hx
  | error e t =>
    rw [hr] at hx
    exact hx

end Meets

theorem meets_scoped (back : σ → σ → σ) {enter : Action σ Unit} {R : σ → Prop}
    {S : α → σ → Prop} (henter : Meets P (fun _ => R) E enter) (hx : Meets R S E x)
    (hback : ∀ s a t, P s → S a t → Q a (back s t)) :
    Meets P Q E (do
      let before ← get
      enter
      Action.afterwards (back before) x) := by
  intro s hs
  have hbody : Meets R Q E (Action.afterwards (back s) x) :=
    hx.afterwards fun a t ht => hback s a t hs ht
  exact (henter.bind fun _ => hbody) s hs

def Keeps (I : σ → Prop) (E : Fault → Prop) (x : Action σ α) : Prop := Meets I (fun _ => I) E x

variable {I : σ → Prop}

theorem keeps_pure (a : α) : Keeps I E (pure a : Action σ α) := fun _ hs => hs

theorem keeps_throw {e : Fault} (h : E e) : Keeps I E (throw e : Action σ α) := fun _ _ => h

theorem keeps_observe {f : σ → Except Fault α} (h : ∀ s, I s → Answers (fun _ => True) E (f s)) :
    Keeps I E (observe f) :=
  meets_observe fun s hs => (h s hs).mono fun _ _ => hs

theorem keeps_ofExcept {y : Except Fault α} (h : Answers (fun _ => True) E y) :
    Keeps I E (ofExcept y : Action σ α) := keeps_observe fun _ _ => h

theorem Keeps.bind {f : α → Action σ β} (h : Keeps I E x) (hf : ∀ a, Keeps I E (f a)) :
    Keeps I E (x >>= f) := Meets.bind h hf

end Action

end ArrayFusion
