import ArrayFusion.Fault
set_option autoImplicit false

/-!
Computations on a state that may fault. A fault keeps the state in which it
arose: what was written before it stays written.
-/

namespace ArrayFusion

abbrev Action (σ α : Type) := EStateM Fault σ α

namespace Action

variable {σ τ α β : Type}

def ofExcept (x : Except Fault α) : Action σ α := fun s =>
  match x with
  | .ok a => .ok a s
  | .error e => .error e s

def observe (f : σ → Except Fault α) : Action σ α := fun s => ofExcept (f s) s

/-- Changes the state at the end, whether there was a fault or not. -/
def afterwards (f : σ → σ) (x : Action σ α) : Action σ α := fun s =>
  match x s with
  | .ok a s => .ok a (f s)
  | .error e s => .error e (f s)

def onPart (view : τ → σ) (put : σ → τ → τ) (x : Action σ α) : Action τ α := fun t =>
  match x (view t) with
  | .ok a s => .ok a (put s t)
  | .error e s => .error e (put s t)

def answer (x : Action σ α) (s : σ) : Except Fault α :=
  match x s with
  | .ok a _ => .ok a
  | .error e _ => .error e

def outcome (x : Action σ α) (s : σ) : Except Fault α × σ :=
  match x s with
  | .ok a s => (.ok a, s)
  | .error e s => (.error e, s)

theorem bind_eq_ok_iff {x : Action σ α} {f : α → Action σ β} {s s'' : σ} {b : β} :
    (x >>= f) s = .ok b s'' ↔ ∃ a s', x s = .ok a s' ∧ f a s' = .ok b s'' := by
  simp only [bind, EStateM.bind]
  cases x s with
  | error e s' => simp
  | ok a s' =>
    constructor
    · exact fun h => ⟨a, s', rfl, h⟩
    · rintro ⟨_, _, ⟨rfl, rfl⟩, h⟩ ; exact h

theorem bind_eq_error_iff {x : Action σ α} {f : α → Action σ β} {s s'' : σ} {e : Fault} :
    (x >>= f) s = .error e s'' ↔
      x s = .error e s'' ∨ ∃ a s', x s = .ok a s' ∧ f a s' = .error e s'' := by
  simp only [bind, EStateM.bind]
  cases x s with
  | error e s' => simp
  | ok a s' =>
    constructor
    · exact fun h => .inr ⟨a, s', rfl, h⟩
    · rintro (h | ⟨_, _, ⟨rfl, rfl⟩, h⟩)
      · cases h
      · exact h

end Action

end ArrayFusion
