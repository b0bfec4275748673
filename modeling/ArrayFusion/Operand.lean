import ArrayFusion.Expr
import ArrayFusion.Signature.Argument
set_option autoImplicit false

/-!
Arguments of an operation in a program. Buffers carry references to their
extents, so that these stay known even if the buffer itself is fused away.
-/

namespace ArrayFusion

inductive Operand where
  | scalar (r : Ref)
  | function (f : Fn)
  | input (shape : List Ref) (buffer : Ref)
  | output (shape : List Ref) (buffer : Ref)
  deriving DecidableEq, Repr

namespace Operand

def param : Operand → Param
  | .scalar r => ⟨.scalar, r.ty⟩
  | .function f => ⟨.function, f.ty⟩
  | .input _ b => ⟨.input, b.ty⟩
  | .output _ b => ⟨.output, b.ty⟩

def asBuffer : Operand → Option (List Ref × Ref)
  | .input shape b | .output shape b => some (shape, b)
  | _ => none

def toInput : Operand → Operand
  | .output shape b => .input shape b
  | o => o

end Operand

instance : Argument Operand where
  param := Operand.param
  sameArray o o' := o.asBuffer.isSome && o.asBuffer = o'.asBuffer
  toInput := Operand.toInput

instance : LawfulArgument Operand where
  param_toInput {a _} h := by
    cases a <;> simp_all [Argument.param, Argument.toInput, Operand.param, Operand.toInput]
  sameArray_toInput {a _} h := by
    cases a <;>
      simp_all [Argument.param, Argument.sameArray, Argument.toInput, Operand.param,
        Operand.toInput, Operand.asBuffer]
  eq_toInput {a b _} h₁ h₂ h := by
    cases a <;> cases b <;>
      simp_all [Argument.param, Argument.sameArray, Argument.toInput, Operand.param,
        Operand.toInput, Operand.asBuffer]
  sameArray_self {a _} h := by
    cases a <;> simp_all [Argument.param, Argument.sameArray, Operand.param, Operand.asBuffer]
  eq_of_sameArray {a b _} h₁ h₂ h := by
    cases a <;> cases b <;>
      simp_all [Argument.param, Argument.sameArray, Operand.param, Operand.asBuffer]

end ArrayFusion
