import ArrayFusion.Ty
set_option autoImplicit false

namespace ArrayFusion

/-- A slot counted from the top, with the type the reference expects there. -/
structure Ref where
  index : Nat
  ty : Ty
  deriving DecidableEq, Repr

namespace Ref

def shifted (n : Nat) (r : Ref) : Ref := ⟨r.index + n, r.ty⟩

def lowered (n : Nat) (r : Ref) : Ref := ⟨r.index - n, r.ty⟩

@[simp] theorem index_shifted (n : Nat) (r : Ref) : (r.shifted n).index = r.index + n := rfl
@[simp] theorem ty_shifted (n : Nat) (r : Ref) : (r.shifted n).ty = r.ty := rfl
@[simp] theorem index_lowered (n : Nat) (r : Ref) : (r.lowered n).index = r.index - n := rfl
@[simp] theorem ty_lowered (n : Nat) (r : Ref) : (r.lowered n).ty = r.ty := rfl

@[simp] theorem shifted_zero (r : Ref) : r.shifted 0 = r := rfl

theorem shifted_shifted (m n : Nat) (r : Ref) :
    (r.shifted m).shifted n = r.shifted (m + n) := by
  simp [shifted, Nat.add_assoc]

theorem lowered_lowered (m n : Nat) (r : Ref) :
    (r.lowered m).lowered n = r.lowered (m + n) := by
  simp [lowered, Nat.sub_add_eq]

@[simp] theorem lowered_shifted (n : Nat) (r : Ref) : (r.shifted n).lowered n = r := by
  simp [shifted, lowered]

theorem shifted_lowered {n : Nat} {r : Ref} (h : n ≤ r.index) :
    (r.lowered n).shifted n = r := by
  simp [shifted, lowered, Nat.sub_add_cancel h]

def text (r : Ref) : String := "#" ++ toString r.index

end Ref

inductive Tuple where
  | unit
  | ref (r : Ref)
  | pair (l r : Tuple)
  deriving DecidableEq, Repr

namespace Tuple

def ty : Tuple → Ty
  | .unit => .unit
  | .ref r => r.ty
  | .pair l r => .pair l.ty r.ty

def refs : Tuple → List Ref
  | .unit => []
  | .ref r => [r]
  | .pair l r => l.refs ++ r.refs

def text : Tuple → String
  | .unit => "()"
  | .ref r => r.text
  | .pair l r => "(" ++ l.text ++ ", " ++ r.text ++ ")"

end Tuple

end ArrayFusion
