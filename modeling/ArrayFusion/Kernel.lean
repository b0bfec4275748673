import ArrayFusion.Expr
set_option autoImplicit false

namespace ArrayFusion

inductive Kernel where
  | map (rank : Nat) (input output : Ty) (f : Fn)
  | zipWith (rank : Nat) (left right output : Ty) (f : Fn)
  /-- Applies a function to each linear position. -/
  | generate (rank : Nat) (output : Ty) (f : Fn)
  deriving DecidableEq, Repr

namespace Kernel

def name : Kernel → String
  | .map .. => "map"
  | .zipWith .. => "zipWith"
  | .generate .. => "generate"

def signature : Kernel → Signature
  | .map rank a b _ => [⟨.input, .array rank a⟩, ⟨.output, .array rank b⟩]
  | .zipWith rank a b c _ =>
    [⟨.input, .array rank a⟩, ⟨.input, .array rank b⟩, ⟨.output, .array rank c⟩]
  | .generate rank a _ => [⟨.output, .array rank a⟩]

def fn : Kernel → Fn
  | .map _ _ _ f | .zipWith _ _ _ _ f | .generate _ _ f => f

end Kernel

instance : Operation Kernel where
  name := Kernel.name
  signature := Kernel.signature

end ArrayFusion
