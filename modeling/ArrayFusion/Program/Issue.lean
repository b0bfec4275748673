import ArrayFusion.Context
import ArrayFusion.Program
set_option autoImplicit false

/-!
Well-formedness of programs. A program without issues has references that are
in range and of the right type, binders and conditions of the type of what they
receive, argument lists of the signature of their operation, and buffers with
one extent for each dimension. All issues are listed, in the order of the text.
-/

namespace ArrayFusion

inductive Issue where
  | badIndex (r : Ref) (cause : Fault)
  | badScalarVar (r : Ref) (cause : Fault)
  | binderMismatch (p : Pattern) (bound : Ty)
  | signatureMismatch (operation : String) (expected found : Signature)
  | nonBooleanCondition (found : Ty)
  | badShape (buffer : Ref) (rank extents : Nat)
  | badExtent (r : Ref)
  | notABuffer (r : Ref)
  | notAPair (found : Ty)
  deriving DecidableEq, Repr

def Issue.text : Issue → String
  | .badIndex r e => "Bad index " ++ r.text ++ ": " ++ e.text
  | .badScalarVar r e => "Bad scalar variable " ++ r.text ++ ": " ++ e.text
  | .binderMismatch p t =>
    "Binder " ++ p.text ++ " of type " ++ p.ty.text ++ " cannot bind a value of type " ++ t.text
  | .signatureMismatch op s t => op ++ " expects arguments " ++ s.text ++ ", got " ++ t.text
  | .nonBooleanCondition t => "Condition has type " ++ t.text ++ ", expected bool"
  | .badShape r m n =>
    "Buffer " ++ r.text ++ " has rank " ++ toString m ++ " but " ++ toString n ++
      " shape variables"
  | .badExtent r =>
    "Shape variable " ++ r.text ++ " has type " ++ r.ty.text ++ ", expected " ++ Ty.size.text
  | .notABuffer r => "Index instruction reads " ++ r.text ++ " of type " ++ r.ty.text
  | .notAPair t => "Projection from type " ++ t.text ++ ", expected a pair"

def Context.indexIssues (Γ : Context) (r : Ref) : List Issue :=
  match Γ.lookup r with
  | .ok _ => []
  | .error e => [.badIndex r e]

def Context.scalarIssues (Δ : Context) (r : Ref) : List Issue :=
  match Δ.lookup r with
  | .ok _ => []
  | .error e => [.badScalarVar r e]

def Context.extentIssues (Γ : Context) (r : Ref) : List Issue :=
  Γ.indexIssues r ++ if r.ty = .size then [] else [.badExtent r]

def Pattern.bindIssues (p : Pattern) (bound : Ty) : List Issue :=
  if p.ty = bound then [] else [.binderMismatch p bound]

def conditionIssues (t : Ty) : List Issue :=
  if t = .bool then [] else [.nonBooleanCondition t]

/-- Issues that depend on the type of an expression. Where it cannot be told, an
issue has been found inside the expression already. -/
def Expr.typedIssues (e : Expr) (f : Ty → List Issue) : List Issue :=
  match e.ty? with
  | .ok t => f t
  | .error _ => []

def pairIssues (t : Ty) : List Issue :=
  if t.asPair.isSome then [] else [.notAPair t]

/-- `Γ` is the array-level environment and `Δ` the scalar one. -/
def Expr.issues (Γ : Context) : Expr → Context → List Issue
  | .letIn p bound body, Δ =>
    bound.issues Γ Δ ++ bound.typedIssues p.bindIssues ++ body.issues Γ (Δ.enter p)
  | .var r, Δ => Δ.scalarIssues r
  | .const _, _ | .nil, _ => []
  | .unary _ e, Δ => e.issues Γ Δ
  | .fst e, Δ | .snd e, Δ => e.issues Γ Δ ++ e.typedIssues pairIssues
  | .binary _ a b, Δ | .pair a b, Δ => a.issues Γ Δ ++ b.issues Γ Δ
  | .cond test onTrue onFalse, Δ =>
    test.issues Γ Δ ++ test.typedIssues conditionIssues ++
      onTrue.issues Γ Δ ++ onFalse.issues Γ Δ
  | .read r e, Δ =>
    Γ.indexIssues r ++ (if r.ty.asArray.isSome then [] else [.notABuffer r]) ++ e.issues Γ Δ
  | .param r e, Δ => Γ.indexIssues r ++ e.issues Γ Δ

def Fn.issuesIn (Γ : Context) : Fn → Context → List Issue
  | .lam p f, Δ => f.issuesIn Γ (Δ.enter p)
  | .body e, Δ => e.issues Γ Δ

def Fn.issues (Γ : Context) (f : Fn) : List Issue := f.issuesIn Γ []

def bufferIssues (Γ : Context) (shape : List Ref) (b : Ref) : List Issue :=
  Γ.indexIssues b ++
    (match b.ty.asArray with
    | some (rank, _) => if rank = shape.length then [] else [.badShape b rank shape.length]
    | none => [.notABuffer b]) ++
    shape.flatMap Γ.extentIssues

def Operand.issues (Γ : Context) : Operand → List Issue
  | .scalar r => Γ.indexIssues r
  | .function f => f.issues Γ
  | .input shape b | .output shape b => bufferIssues Γ shape b

variable {Op : Type} [Operation Op]

def callIssues (op : Op) (args : List Operand) : List Issue :=
  if Operation.signature op = signatureOf args then []
  else [.signatureMismatch (Operation.name op) (Operation.signature op) (signatureOf args)]

namespace Program

def issues : Program Op → Context → List Issue
  | .exec op args, Γ => callIssues op args ++ args.flatMap (Operand.issues Γ)
  | .ret t, Γ => t.refs.flatMap Γ.indexIssues
  | .compute e, Γ => e.issues Γ []
  | .alloc _ shape, Γ => shape.flatMap Γ.extentIssues
  | .letIn p bound body, Γ =>
    bound.issues Γ ++ p.bindIssues bound.ty ++ body.issues (Γ.enter p)
  | .cond test onTrue onFalse, Γ =>
    Γ.indexIssues test ++ conditionIssues test.ty ++ onTrue.issues Γ ++ onFalse.issues Γ

end Program

end ArrayFusion
