import ArrayFusion.Literal
set_option autoImplicit false

namespace ArrayFusion

structure BufferId where
  number : Nat
  deriving DecidableEq, Repr

def BufferId.text (b : BufferId) : String := "buf" ++ toString b.number

inductive Value where
  | scalar (x : Literal)
  | buffer (b : BufferId)
  | unit
  | pair (a b : Value)
  deriving DecidableEq, Repr

def Value.tagged : Value → String
  | .scalar x => "Scalar(" ++ x.tagged ++ ")"
  | .buffer b => "Buffer(BufferId(" ++ toString b.number ++ "))"
  | .unit => "Unit"
  | .pair a b => "Pair(" ++ a.tagged ++ ", " ++ b.tagged ++ ")"

end ArrayFusion
