set_option autoImplicit false

namespace ArrayFusion

def bracketed (items : List String) : String :=
  "[" ++ ", ".intercalate items ++ "]"

def bracketedNats (ns : List Nat) : String :=
  bracketed (ns.map toString)

/-- Extents, outermost dimension first. -/
abbrev Shape := List Nat

namespace Shape

/-- How many elements the extents stand for; without dimensions there is one. -/
def product : Shape → Nat
  | [] => 1
  | n :: ns => n * product ns

/-- The product in words of 64 bits, which wraps around. -/
def volume : Shape → Nat
  | [] => 1
  | n :: ns => n * volume ns % UInt64.size

theorem volume_eq_mod (s : Shape) : s.volume = s.product % UInt64.size := by
  induction s with
  | nil => rfl
  | cons n ns ih => rw [volume, product, ih, Nat.mul_mod_mod]

theorem volume_eq_product_iff {s : Shape} : s.volume = s.product ↔ s.product < UInt64.size := by
  rw [volume_eq_mod]
  exact Nat.mod_eq_iff_lt (by decide)

def text (s : Shape) : String := bracketedNats s

end Shape

end ArrayFusion
