import ArrayFusion.Expr
import ArrayFusion.Heap
import ArrayFusion.Stack
set_option autoImplicit false

/-!
Evaluation of scalar expressions and functions. The scalar environment is the
state; the array-level environment and the heap are only read.
-/

namespace ArrayFusion

def UnaryOp.apply : UnaryOp → Literal → Except Fault Literal
  | .neg, .int n => .ok (.int (-n))
  | .neg, .float x => .ok (.float (-x))
  | .not, .bool b => .ok (.bool !b)
  | op, x => .error (.invariant (.unaryRefused op x))

def Literal.equals : Literal → Literal → Bool
  | .bool a, .bool b => a == b
  | .int m, .int n => m == n
  | .float x, .float y => x == y
  | _, _ => false

def BinaryOp.apply : BinaryOp → Literal → Literal → Except Fault Literal
  | .add, .int m, .int n => .ok (.int (m + n))
  | .sub, .int m, .int n => .ok (.int (m - n))
  | .mul, .int m, .int n => .ok (.int (m * n))
  | .div, .int m, .int n =>
    if n = 0 then .error (.invariant .divisionByZero) else .ok (.int (m / n))
  | .add, .float x, .float y => .ok (.float (x + y))
  | .sub, .float x, .float y => .ok (.float (x - y))
  | .mul, .float x, .float y => .ok (.float (x * y))
  | .div, .float x, .float y => .ok (.float (x / y))
  | .eq, x, y => .ok (.bool (x.equals y))
  | .lt, .int m, .int n => .ok (.bool (m < n))
  | .lt, .float x, .float y => .ok (.bool (x < y))
  | .and, .bool a, .bool b => .ok (.bool (a && b))
  | .or, .bool a, .bool b => .ok (.bool (a || b))
  | op, x, y => .error (.invariant (.binaryRefused op x y))

/-- Operands are evaluated from the left, each checked before the next one is
evaluated. The body of a binding leaves the scope as long as it found it. -/
def Expr.eval (env : Stack) (heap : Heap) : Expr → Action Stack Value
  | .letIn p bound body => do
    let v ← bound.eval env heap
    let scope ← get
    p.bind v
    Action.afterwards (·.truncate scope.length) (body.eval env heap)
  | .var r => Action.observe (·.lookup r)
  | .const x => pure (.scalar x)
  | .unary op e => do
    let v ← e.eval env heap
    let x ← Action.ofExcept v.asLiteral
    let y ← Action.ofExcept (op.apply x)
    pure (.scalar y)
  | .binary op a b => do
    let v ← a.eval env heap
    let x ← Action.ofExcept v.asLiteral
    let w ← b.eval env heap
    let y ← Action.ofExcept w.asLiteral
    let z ← Action.ofExcept (op.apply x y)
    pure (.scalar z)
  | .pair a b => do
    let v ← a.eval env heap
    let w ← b.eval env heap
    pure (.pair v w)
  | .nil => pure .unit
  | .fst e => do
    match ← e.eval env heap with
    | .pair a _ => pure a
    | v => throw (.invariant (.notPair v))
  | .snd e => do
    match ← e.eval env heap with
    | .pair _ b => pure b
    | v => throw (.invariant (.notPair v))
  | .cond test onTrue onFalse => do
    let v ← test.eval env heap
    match ← Action.ofExcept v.asLiteral with
    | .bool true => onTrue.eval env heap
    | .bool false => onFalse.eval env heap
    | x => throw (.invariant (.notCondition x))
  | .read r e => do
    let array ← Action.ofExcept (env.lookup r)
    let b ← Action.ofExcept array.asBuffer
    let v ← e.eval env heap
    let i ← Action.ofExcept v.asExtent
    let x ← Action.ofExcept (heap.read b i)
    pure (.scalar x)
  | .param r _ => Action.ofExcept (env.lookup r)

/-- Binds the arguments from the first parameter on. Arguments that are left
over are noticed when the body is reached. -/
def Fn.applyIn (env : Stack) (heap : Heap) : Fn → List Value → Action Stack Value
  | .lam p _, [] => throw (.invariant (.tooFewArguments p))
  | .lam p f, v :: vs => do
    p.bind v
    f.applyIn env heap vs
  | .body e, [] => e.eval env heap
  | .body _, _ :: _ => throw (.invariant .tooManyArguments)

def Fn.apply (env : Stack) (heap : Heap) (f : Fn) (args : List Value) : Except Fault Value :=
  Action.answer (f.applyIn env heap args) []

end ArrayFusion
