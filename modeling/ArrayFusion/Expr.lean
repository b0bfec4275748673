import ArrayFusion.Fault
set_option autoImplicit false

/-!
Scalar expressions and functions. Variables refer to a scalar environment of
their own; arrays and array-level scalars are reached only by `read` and `param`.
-/

namespace ArrayFusion

inductive Expr where
  | letIn (p : Pattern) (bound body : Expr)
  | var (r : Ref)
  | const (x : Literal)
  | unary (op : UnaryOp) (e : Expr)
  | binary (op : BinaryOp) (a b : Expr)
  | pair (a b : Expr)
  | nil
  | fst (e : Expr)
  | snd (e : Expr)
  | cond (test onTrue onFalse : Expr)
  /-- The element of an array at a linear position. -/
  | read (array : Ref) (position : Expr)
  /-- A scalar of the array level; the operand stands for nothing. -/
  | param (r : Ref) (operand : Expr)
  deriving DecidableEq, Repr

namespace Expr

/-- The type as far as the types of references and literals tell it. Operands
that do not bear on it are not looked at. -/
def ty? : Expr → Except Fault Ty
  | .letIn _ _ body => body.ty?
  | .var r => .ok r.ty
  | .const x => .ok x.ty
  | .unary .not _ => .ok .bool
  | .unary .neg e => e.ty?
  | .binary op a _ => if op.isComparison then .ok .bool else a.ty?
  | .pair a b => do
    let t ← a.ty?
    let u ← b.ty?
    .ok (.pair t u)
  | .nil => .ok .unit
  | .fst e => do
    let t ← e.ty?
    match t.asPair with
    | some (a, _) => .ok a
    | none => .error (.invariant (.projectsNonPair t))
  | .snd e => do
    let t ← e.ty?
    match t.asPair with
    | some (_, b) => .ok b
    | none => .error (.invariant (.projectsNonPair t))
  | .cond _ onTrue _ => onTrue.ty?
  | .read r _ =>
    match r.ty.asArray with
    | some (_, elem) => .ok elem
    | none => .error (.invariant (.indexesNonArray r))
  | .param r _ => .ok r.ty

/-- The type, unit standing in for one that cannot be told. -/
def ty (e : Expr) : Ty :=
  match e.ty? with
  | .ok t => t
  | .error _ => .unit

end Expr

inductive Fn where
  | lam (p : Pattern) (f : Fn)
  | body (e : Expr)
  deriving DecidableEq, Repr

namespace Fn

def unary (t : Ty) (e : Expr) : Fn := .lam (.slot t) (.body e)

/-- Inside the body the second parameter is reference 0 and the first is 1. -/
def binary (t u : Ty) (e : Expr) : Fn := .lam (.slot t) (.lam (.slot u) (.body e))

def ty : Fn → Ty
  | .lam p f => .arrow p.ty f.ty
  | .body e => e.ty

end Fn

end ArrayFusion
