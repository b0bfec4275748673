import ArrayFusion.Ty
import ArrayFusion.Decimal.Shortest
set_option autoImplicit false

/-!
Scalar constants and the operators on them. Integers are 64 bits wide and wrap
around; floats follow the IEEE rules, so a NaN equals nothing.
-/

namespace ArrayFusion

inductive Literal where
  | bool (b : Bool)
  | int (n : Int64)
  | float (x : Float)
  deriving DecidableEq, Repr

def Literal.ty : Literal → Ty
  | .bool _ => .bool
  | .int _ => .int 64
  | .float _ => .float 64

def floatMagnitude (exponent fraction : Nat) : String :=
  if exponent = 0 ∧ fraction = 0 then "0.0"
  else if exponent = 0 then (Binary.shortest ⟨fraction, -1074, false⟩).text
  else
    (Binary.shortest ⟨fraction + Nat.pow 2 52, exponent - 1075,
      decide (fraction = 0 ∧ 1 < exponent)⟩).text

/-- Sign, then the fewest digits that read back as the same double. -/
def floatText (x : Float) : String :=
  let bits := x.toBits.toNat
  let exponent := bits / Nat.pow 2 52 % Nat.pow 2 11
  let fraction := bits % Nat.pow 2 52
  let sign := if bits / Nat.pow 2 63 = 1 then "-" else ""
  if exponent = 2047 then
    if fraction = 0 then sign ++ "inf" else "NaN"
  else sign ++ floatMagnitude exponent fraction

def Literal.text : Literal → String
  | .bool b => toString b
  | .int n => toString n.toInt
  | .float x => floatText x

def Literal.tagged : Literal → String
  | .bool b => "Bool(" ++ toString b ++ ")"
  | .int n => "Int(" ++ toString n.toInt ++ ")"
  | .float x => "Float(" ++ floatText x ++ ")"

inductive UnaryOp where
  | neg | not
  deriving DecidableEq, Repr

def UnaryOp.name : UnaryOp → String
  | .neg => "Neg"
  | .not => "Not"

inductive BinaryOp where
  | add | sub | mul | div | eq | lt | and | or
  deriving DecidableEq, Repr

def BinaryOp.name : BinaryOp → String
  | .add => "Add"
  | .sub => "Sub"
  | .mul => "Mul"
  | .div => "Div"
  | .eq => "Eq"
  | .lt => "Lt"
  | .and => "And"
  | .or => "Or"

def BinaryOp.isComparison : BinaryOp → Bool
  | .eq | .lt => true
  | _ => false

end ArrayFusion
