set_option autoImplicit false

/-!
The shortest decimal that reads back as a given binary number. The decimals
that read back fill an interval around the number; of the decimal grids
1, 2, … digits wide the first one with a point in that interval is taken, and
of two such points the nearer.
-/

namespace ArrayFusion

/-- The number `mantissa · 2 ^ exponent`. At the foot of a binade its lower
neighbour is half as far away as its upper one. -/
structure Binary where
  mantissa : Nat
  exponent : Int
  foot : Bool
  deriving DecidableEq, Repr

structure Decimal where
  digits : Nat
  exponent : Int
  deriving DecidableEq, Repr

namespace Binary

/-- Numerator of the value over `denominator`, fine enough to name half of
the way to either neighbour. -/
def numerator (b : Binary) : Nat := 4 * b.mantissa * Nat.pow 2 b.exponent.toNat

def denominator (b : Binary) : Nat := 4 * Nat.pow 2 (-b.exponent).toNat

/-- Lower and upper end of the interval of numbers that round to the value. -/
def lowest (b : Binary) : Nat :=
  b.numerator - (if b.foot then 1 else 2) * Nat.pow 2 b.exponent.toNat

def highest (b : Binary) : Nat := b.numerator + 2 * Nat.pow 2 b.exponent.toNat

/-- The ends themselves round to the value when its mantissa is even. -/
def readsBack (b : Binary) (d : Decimal) : Bool :=
  let point := d.digits * Nat.pow 10 d.exponent.toNat * b.denominator
  let scale := Nat.pow 10 (-d.exponent).toNat
  if b.mantissa % 2 = 0 then
    decide (b.lowest * scale ≤ point ∧ point ≤ b.highest * scale)
  else
    decide (b.lowest * scale < point ∧ point < b.highest * scale)

/-- The `k` with `10 ^ (k - 1) ≤ value < 10 ^ k`, for a positive value. -/
def decimalPoint (b : Binary) : Int :=
  if b.denominator ≤ b.numerator then
    ((toString (b.numerator / b.denominator)).length : Int)
  else
    1 - ((toString ((b.denominator - 1) / b.numerator)).length : Int)

/-- The point of the grid of step `10 ^ e` that reads back and lies nearest;
halfway between two of them it is the upper one. -/
def onGrid? (b : Binary) (e : Int) : Option Decimal :=
  let step := Nat.pow 10 e.toNat * b.denominator
  let value := b.numerator * Nat.pow 10 (-e).toNat
  let below : Decimal := ⟨value / step, e⟩
  let above : Decimal := ⟨value / step + 1, e⟩
  match b.readsBack below, b.readsBack above with
  | false, false => none
  | true, false => some below
  | false, true => some above
  | true, true => some (if 2 * (value % step) < step then below else above)

/-- Seventeen digits always suffice for a 53-bit mantissa. -/
def shortest (b : Binary) : Decimal :=
  ((List.range 17).findSome? fun n : Nat => b.onGrid? (b.decimalPoint - (n + 1))).getD ⟨0, 0⟩

end Binary

def Decimal.significant (d : Decimal) : List Char :=
  ((toString d.digits).toList.reverse.dropWhile (· == '0')).reverse

def Decimal.point (d : Decimal) : Int := (toString d.digits).length + d.exponent

/-- Values from `1e-4` up to `1e16` are written in positions with a digit on each
side of the point, all others with an exponent and no more digits than needed. -/
def Decimal.text (d : Decimal) : String :=
  let ds := d.significant
  let point := d.point
  if -3 ≤ point ∧ point ≤ 16 then
    if point ≤ 0 then
      "0." ++ String.ofList (List.replicate (-point).toNat '0' ++ ds)
    else
      let whole := ds.take point.toNat
      let part := ds.drop point.toNat
      String.ofList (whole ++ List.replicate (point.toNat - ds.length) '0') ++ "." ++
        (if part.isEmpty then "0" else String.ofList part)
  else
    let part := ds.drop 1
    String.ofList (ds.take 1) ++ (if part.isEmpty then "" else "." ++ String.ofList part) ++
      "e" ++ toString (point - 1)

end ArrayFusion
