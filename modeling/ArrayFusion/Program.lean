import ArrayFusion.Operand
set_option autoImplicit false

namespace ArrayFusion

inductive Program (Op : Type) where
  /-- Runs an operation; gives unit. -/
  | exec (op : Op) (args : List Operand)
  | ret (t : Tuple)
  | compute (e : Expr)
  | alloc (elem : Ty) (shape : List Ref)
  | letIn (p : Pattern) (bound body : Program Op)
  | cond (test : Ref) (onTrue onFalse : Program Op)

namespace Program

variable {Op : Type}

def ty : Program Op → Ty
  | .exec _ _ => .unit
  | .ret t => t.ty
  | .compute e => e.ty
  | .alloc elem shape => .array shape.length elem
  | .letIn _ _ body => body.ty
  | .cond _ onTrue _ => onTrue.ty

def isEmptyReturn : Program Op → Bool
  | .ret .unit => true
  | _ => false

def isReturn : Program Op → Bool
  | .ret _ => true
  | _ => false

end Program

end ArrayFusion
