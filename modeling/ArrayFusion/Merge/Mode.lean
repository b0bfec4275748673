set_option autoImplicit false

namespace ArrayFusion

inductive MergeMode where
  /-- The left side writes the array, the right side reads it, and it stays inside. -/
  | consumed
  /-- As `consumed`, but the array is still written for others to see. -/
  | kept
  /-- Both sides read the same array. -/
  | shared
  /-- Only the right side uses the argument. -/
  | rightOnly
  /-- Only the left side uses the argument. -/
  | leftOnly
  /-- Only the right side writes the array. -/
  | rightOnlyOut
  /-- Only the left side writes the array. -/
  | leftOnlyOut
  deriving DecidableEq, Repr

namespace MergeMode

/-- An argument of one side counts as weakened in from the other side's view. -/
def name : MergeMode → String
  | .consumed => "Consumed"
  | .kept => "Kept"
  | .shared => "Shared"
  | .rightOnly => "WeakLeftOnly"
  | .leftOnly => "WeakRightOnly"
  | .rightOnlyOut => "WeakLeftOnlyOut"
  | .leftOnlyOut => "WeakRightOnlyOut"

def symbol : MergeMode → String
  | .consumed => "V"
  | .kept => "D"
  | .shared => "H"
  | .rightOnly => "_R"
  | .leftOnly => "L_"
  | .rightOnlyOut => "_R'"
  | .leftOnlyOut => "L_'"

def listText (modes : List MergeMode) : String :=
  "\x7b" ++ " ".intercalate (modes.map symbol) ++ "\x7d"

end MergeMode

end ArrayFusion
