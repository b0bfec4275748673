import ArrayFusion.Expr
import ArrayFusion.Heap
import ArrayFusion.Signature.Argument
set_option autoImplicit false

namespace ArrayFusion

inductive Actual where
  | scalar (x : Literal)
  | function (f : Fn)
  | input (b : BufferId) (ty : Ty)
  | output (b : BufferId) (ty : Ty)
  deriving DecidableEq, Repr

namespace Actual

def param : Actual → Param
  | .scalar x => ⟨.scalar, x.ty⟩
  | .function f => ⟨.function, f.ty⟩
  | .input _ t => ⟨.input, t⟩
  | .output _ t => ⟨.output, t⟩

def buffer? : Actual → Option BufferId
  | .input b _ | .output b _ => some b
  | _ => none

def toInput : Actual → Actual
  | .output b t => .input b t
  | a => a

end Actual

instance : Argument Actual where
  param := Actual.param
  sameArray a a' := a.buffer?.isSome && a.buffer? = a'.buffer?
  toInput := Actual.toInput

instance : LawfulArgument Actual where
  param_toInput {a _} h := by
    cases a <;> simp_all [Argument.param, Argument.toInput, Actual.param, Actual.toInput]
  sameArray_toInput {a _} h := by
    cases a <;>
      simp_all [Argument.param, Argument.sameArray, Argument.toInput, Actual.param,
        Actual.toInput, Actual.buffer?]
  eq_toInput {a b _} h₁ h₂ h := by
    cases a <;> cases b <;>
      simp_all [Argument.param, Argument.sameArray, Argument.toInput, Actual.param,
        Actual.toInput, Actual.buffer?]
  sameArray_self {a _} h := by
    cases a <;> simp_all [Argument.param, Argument.sameArray, Actual.param, Actual.buffer?]
  eq_of_sameArray {a b _} h₁ h₂ h := by
    cases a <;> cases b <;>
      simp_all [Argument.param, Argument.sameArray, Actual.param, Actual.buffer?]

/-- Operations that can be run on arguments in natural order. -/
class Executable (Op : Type) extends Operation Op where
  execute : Op → List Actual → Action Heap Unit

end ArrayFusion
