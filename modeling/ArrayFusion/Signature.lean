import ArrayFusion.Shape
import ArrayFusion.Ty
set_option autoImplicit false

namespace ArrayFusion

inductive Role where
  | scalar
  | function
  /-- An array that is read. -/
  | input
  /-- An array that is written. -/
  | output
  deriving DecidableEq, Repr

def Role.text : Role → String
  | .scalar => "Var"
  | .function => "Fun"
  | .input => "In"
  | .output => "Out"

structure Param where
  role : Role
  ty : Ty
  deriving DecidableEq, Repr

def Param.isBuffer (p : Param) : Bool := p.role = .input || p.role = .output

def Param.text (p : Param) : String := p.role.text ++ " " ++ p.ty.text

abbrev Signature := List Param

def Signature.count (s : Signature) (role : Role) : Nat :=
  s.countP (·.role = role)

def Signature.text (s : Signature) : String := bracketed (s.map Param.text)

/-- A primitive operation, known by its name and by the signature of its natural argument
order. -/
class Operation (Op : Type) where
  name : Op → String
  signature : Op → Signature

end ArrayFusion
