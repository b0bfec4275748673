import ArrayFusion.Action
set_option autoImplicit false

/-!
Run-time environments: stacks of values, the innermost first.
-/

namespace ArrayFusion

abbrev Stack := List Value

def Stack.lookup (s : Stack) (r : Ref) : Except Fault Value :=
  match s[r.index]? with
  | some v => .ok v
  | none => .error (.outOfRange r.index s.length)

def Stack.truncate (s : Stack) (len : Nat) : Stack := s.drop (s.length - len)

namespace Value

def asLiteral : Value → Except Fault Literal
  | .scalar x => .ok x
  | v => .error (.invariant (.notScalar v))

def asBuffer : Value → Except Fault BufferId
  | .buffer b => .ok b
  | v => .error (.invariant (.notBuffer v))

def asExtent (v : Value) : Except Fault Nat := do
  match ← v.asLiteral with
  | .int n => if 0 ≤ n.toInt then .ok n.toInt.toNat else .error (.invariant (.notExtent (.int n)))
  | x => .error (.invariant (.notExtent x))

end Value

/-- Takes the value apart and pushes its parts, those on the left first. Parts
pushed before one that does not fit stay on the stack. -/
def Pattern.bind : Pattern → Value → Action Stack Unit
  | .wild _, _ => pure ()
  | .slot _, v => fun s => .ok () (v :: s)
  | .pair p q, .pair a b => do
    p.bind a
    q.bind b
  | p, v => throw (.invariant (.cannotBind v p))

def Tuple.value (s : Stack) : Tuple → Except Fault Value
  | .unit => .ok .unit
  | .ref r => s.lookup r
  | .pair a b => do
    let v ← a.value s
    let w ← b.value s
    .ok (.pair v w)

end ArrayFusion
