import ArrayFusion.Ref
set_option autoImplicit false

/-!
Binder patterns: how a bound value is spread over new slots. A pair binds the
slots of its left part first, so those of its right part lie on top.
-/

namespace ArrayFusion

inductive Pattern where
  /-- Discards a value of the type. -/
  | wild (ty : Ty)
  /-- Binds the whole value to one slot. -/
  | slot (ty : Ty)
  | pair (l r : Pattern)
  deriving DecidableEq, Repr

namespace Pattern

/-- Splits pairs, discards units and gives everything else a slot. -/
def ofTy : Ty → Pattern
  | .con .pair [a, b] => .pair (ofTy a) (ofTy b)
  | .con .unit args => .wild (.con .unit args)
  | t => .slot t

def ty : Pattern → Ty
  | .wild t | .slot t => t
  | .pair l r => .pair l.ty r.ty

def size : Pattern → Nat
  | .wild _ => 0
  | .slot _ => 1
  | .pair l r => l.size + r.size

def discards (p : Pattern) : Bool := p.size == 0

/-- Types of the added slots, topmost first. -/
def slotTys : Pattern → List Ty
  | .wild _ => []
  | .slot t => [t]
  | .pair l r => r.slotTys ++ l.slotTys

@[simp] theorem length_slotTys (p : Pattern) : p.slotTys.length = p.size := by
  induction p with
  | wild t => rfl
  | slot t => rfl
  | pair l r hl hr => simp [slotTys, size, hl, hr, Nat.add_comm]

/-- References to the slots, seen from under `above` more of them. A discarded
part has a reference tuple only where it is unit. -/
def tupleUnder : Pattern → Nat → Option Tuple
  | .wild t, _ => if t.isUnit then some .unit else none
  | .slot t, above => some (.ref ⟨above, t⟩)
  | .pair l r, above => do
    let a ← l.tupleUnder (above + r.size)
    let b ← r.tupleUnder above
    some (.pair a b)

theorem tupleUnder_pair {l r : Pattern} {above : Nat} {u : Tuple} :
    (pair l r).tupleUnder above = some u ↔
      ∃ a b, l.tupleUnder (above + r.size) = some a ∧ r.tupleUnder above = some b ∧
        u = .pair a b := by
  simp only [tupleUnder, Option.bind_eq_bind, Option.bind_eq_some_iff, Option.some.injEq]
  constructor
  · rintro ⟨a, ha, b, hb, rfl⟩
    exact ⟨a, b, ha, hb, rfl⟩
  · rintro ⟨a, b, ha, hb, rfl⟩
    exact ⟨a, ha, b, hb, rfl⟩

def tuple? (p : Pattern) : Option Tuple := p.tupleUnder 0

/-- The pattern with the slot `k` from its top turned into a discarded part. -/
def dropSlot? : Pattern → Nat → Option Pattern
  | .wild _, _ => none
  | .slot t, 0 => some (.wild t)
  | .slot _, _ + 1 => none
  | .pair l r, k =>
    if k < r.size then (r.dropSlot? k).map (.pair l)
    else (l.dropSlot? (k - r.size)).map (.pair · r)

theorem dropSlot?_pair {l r q : Pattern} {k : Nat} (h : (pair l r).dropSlot? k = some q) :
    (∃ r', k < r.size ∧ r.dropSlot? k = some r' ∧ q = .pair l r') ∨
      ∃ l', r.size ≤ k ∧ l.dropSlot? (k - r.size) = some l' ∧ q = .pair l' r := by
  simp only [dropSlot?] at h
  split at h
  · rename_i hk
    obtain ⟨r', hr, rfl⟩ := Option.map_eq_some_iff.1 h
    exact .inl ⟨r', hk, hr, rfl⟩
  · rename_i hk
    obtain ⟨l', hl, rfl⟩ := Option.map_eq_some_iff.1 h
    exact .inr ⟨l', Nat.not_lt.1 hk, hl, rfl⟩

theorem size_dropSlot? {p q : Pattern} {k : Nat} (h : p.dropSlot? k = some q) :
    q.size + 1 = p.size := by
  induction p generalizing k q with
  | wild t => cases h
  | slot t => cases k <;> cases h ; rfl
  | pair l r hl hr =>
    obtain ⟨r', -, hr', rfl⟩ | ⟨l', -, hl', rfl⟩ := dropSlot?_pair h
    · rw [size, size, Nat.add_assoc, hr hr']
    · rw [size, size, Nat.add_right_comm, hl hl']

theorem ty_dropSlot? {p q : Pattern} {k : Nat} (h : p.dropSlot? k = some q) :
    q.ty = p.ty := by
  induction p generalizing k q with
  | wild t => cases h
  | slot t => cases k <;> cases h ; rfl
  | pair l r hl hr =>
    obtain ⟨r', -, hr', rfl⟩ | ⟨l', -, hl', rfl⟩ := dropSlot?_pair h
    · rw [ty, ty, hr hr']
    · rw [ty, ty, hl hl']

def text : Pattern → String
  | .wild _ => "_"
  | .slot t => "(" ++ t.text ++ ")"
  | .pair l r => "(" ++ l.text ++ ", " ++ r.text ++ ")"

end Pattern

end ArrayFusion
