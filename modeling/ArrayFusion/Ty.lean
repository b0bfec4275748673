set_option autoImplicit false

/-!
Types of slots, arguments and scalar expressions. A type is a constructor
with arguments or a variable; nothing forces a constructor to carry the number
of arguments that its helper gives it, so every question about a type looks at
the arguments it really has.
-/

namespace ArrayFusion

/-- Scalar constructors carry a bit width, arrays their number of dimensions. -/
inductive TyCon where
  | bool
  | int (bits : Nat)
  | uint (bits : Nat)
  | float (bits : Nat)
  | unit
  | pair
  | array (rank : Nat)
  | arrow
  deriving DecidableEq, Repr

inductive Ty where
  | con (name : TyCon) (args : List Ty)
  | var (n : Nat)
  deriving Repr

mutual
def Ty.decEq : (a b : Ty) → Decidable (a = b)
  | .var m, .var n =>
    if h : m = n then .isTrue (by rw [h]) else .isFalse (by simp [h])
  | .var _, .con _ _ => .isFalse (by simp)
  | .con _ _, .var _ => .isFalse (by simp)
  | .con c as, .con d bs =>
    if h : c = d then
      match Ty.decEqArgs as bs with
      | .isTrue hs => .isTrue (by rw [h, hs])
      | .isFalse hs => .isFalse (by simp [hs])
    else .isFalse (by simp [h])

def Ty.decEqArgs : (as bs : List Ty) → Decidable (as = bs)
  | [], [] => .isTrue rfl
  | [], _ :: _ => .isFalse (by simp)
  | _ :: _, [] => .isFalse (by simp)
  | a :: as, b :: bs =>
    match Ty.decEq a b with
    | .isTrue h =>
      match Ty.decEqArgs as bs with
      | .isTrue hs => .isTrue (by rw [h, hs])
      | .isFalse hs => .isFalse (by simp [hs])
    | .isFalse h => .isFalse (by simp [h])
end

instance : DecidableEq Ty := Ty.decEq

namespace Ty

def bool : Ty := .con .bool []
def int (bits : Nat) : Ty := .con (.int bits) []
def float (bits : Nat) : Ty := .con (.float bits) []
def unit : Ty := .con .unit []
def pair (a b : Ty) : Ty := .con .pair [a, b]
def array (rank : Nat) (elem : Ty) : Ty := .con (.array rank) [elem]
def arrow (a b : Ty) : Ty := .con .arrow [a, b]

def size : Ty := .int 64

def asArray : Ty → Option (Nat × Ty)
  | .con (.array rank) [elem] => some (rank, elem)
  | _ => none

@[simp] theorem asArray_array (rank : Nat) (elem : Ty) :
    (array rank elem).asArray = some (rank, elem) := rfl

theorem eq_array_of_asArray {t elem : Ty} {rank : Nat}
    (h : t.asArray = some (rank, elem)) : t = array rank elem := by
  unfold asArray at h
  split at h <;> simp_all [array]

def asPair : Ty → Option (Ty × Ty)
  | .con .pair [a, b] => some (a, b)
  | _ => none

@[simp] theorem asPair_pair (a b : Ty) : (pair a b).asPair = some (a, b) := rfl

theorem eq_pair_of_asPair {t a b : Ty} (h : t.asPair = some (a, b)) :
    t = pair a b := by
  unfold asPair at h
  split at h <;> simp_all [pair]

/-- A unit type may carry arguments and is still unit. -/
def isUnit : Ty → Bool
  | .con .unit _ => true
  | _ => false

def isScalar : Ty → Bool
  | .con .bool _ | .con (.int _) _ | .con (.uint _) _ | .con (.float _) _ => true
  | _ => false

end Ty

def TyCon.text : TyCon → String
  | .bool => "bool"
  | .int bits => "i" ++ toString bits
  | .uint bits => "u" ++ toString bits
  | .float bits => "f" ++ toString bits
  | .unit => "()"
  | .pair => "Pair"
  | .array rank => "Array" ++ toString rank
  | .arrow => "->"

mutual
/-- An arrow is written between its first two arguments, in parentheses when
it is itself the source of an arrow; any other constructor before its arguments. -/
def Ty.textAt (source : Bool) : Ty → String
  | .var n => "t" ++ toString n
  | .con c [] => c.text
  | .con .arrow (a :: b :: _) =>
    let body := a.textAt true ++ " → " ++ b.textAt false
    if source then "(" ++ body ++ ")" else body
  | .con c (a :: as) => c.text ++ "(" ++ a.textAt false ++ Ty.textRest as ++ ")"

def Ty.textRest : List Ty → String
  | [] => ""
  | t :: ts => "," ++ t.textAt false ++ Ty.textRest ts
end

def Ty.text (t : Ty) : String := t.textAt false

end ArrayFusion
