/-!
The fewest decimal digits that read back as a given double. The reals that round to a positive double form an
interval; the ends belong to it exactly when the mantissa is even. For one digit, two digits and so on up to
seventeen, the two neighbours of the double on that decimal grid are tried; the first grid with a neighbour in
the interval wins, of two neighbours in it the nearer, and of two equally near ones the larger. All arithmetic
is exact.
-/

namespace LineCalc

/-- The number `digits * 10 ^ exponent`. -/
structure Decimal where
  digits : Nat
  exponent : Int
deriving DecidableEq, Repr

namespace Decimal

/-- How many digits `n` is written with. -/
def digitCount (n : Nat) : Nat := (Nat.toDigits 10 n).length

/-- The power of ten of the leading digit. -/
def power (d : Decimal) : Int := d.exponent + digitCount d.digits - 1

/-- The same number without zeros at the end of its digits. -/
def dropZeros (digits : Nat) (exponent : Int) : Decimal :=
  if digits = 0 then ⟨0, exponent⟩
  else if digits % 10 = 0 then dropZeros (digits / 10) (exponent + 1)
  else ⟨digits, exponent⟩
termination_by digits

/-- The largest `k` with `10 ^ k ≤ num / den`, for a positive fraction. -/
def floorLog10 (num den : Nat) : Int :=
  if den ≤ num then (digitCount (num / den) : Int) - 1
  else -(digitCount ((den + num - 1) / num - 1) : Int)

end Decimal

/-- The reals that round to a positive double, and the double itself, in units of `2 ^ -1076`: a quarter of the
unit of doubles, so that all three are whole. -/
structure RoundingInterval where
  low : Nat
  value : Nat
  high : Nat
  closed : Bool
deriving DecidableEq, Repr

namespace RoundingInterval

/-- The denominator of every interval: one is `2 ^ 1076` units. -/
def one : Nat := 1 <<< 1076

/-- The interval of `mantissa * 2 ^ shift` units of `2 ^ -1074`. Below a power of two the next double is half as
far as above it, unless the doubles there are as dense as they can be. -/
def ofDouble (mantissa shift : Nat) : RoundingInterval where
  low := (4 * mantissa - if mantissa = 1 <<< 52 ∧ 0 < shift then 1 else 2) <<< shift
  value := (4 * mantissa) <<< shift
  high := (4 * mantissa + 2) <<< shift
  closed := mantissa % 2 = 0

/-- Whether `d` lies in the interval. -/
def contains (r : RoundingInterval) (d : Decimal) : Bool :=
  let x := d.digits * one * Nat.pow 10 d.exponent.toNat
  let scale := Nat.pow 10 (-d.exponent).toNat
  if r.closed then decide (r.low * scale ≤ x ∧ x ≤ r.high * scale)
  else decide (r.low * scale < x ∧ x < r.high * scale)

/-- The point of the interval nearest the double among its two neighbours on the grid of `10 ^ exponent`. -/
def nearest? (r : RoundingInterval) (exponent : Int) : Option Decimal :=
  let num := r.value * Nat.pow 10 (-exponent).toNat
  let den := one * Nat.pow 10 exponent.toNat
  let below : Decimal := ⟨num / den, exponent⟩
  let above : Decimal := ⟨num / den + 1, exponent⟩
  match r.contains below, r.contains above with
  | true, true => some (if 2 * num < (2 * below.digits + 1) * den then below else above)
  | true, false => some below
  | false, true => some above
  | false, false => none

/-- The shortest decimal in the interval. Seventeen digits always suffice. -/
def shortest (r : RoundingInterval) : Decimal :=
  let power := Decimal.floorLog10 r.value one
  match (List.range 17).findSome? fun n : Nat => r.nearest? (power - (n : Int)) with
  | some d => .dropZeros d.digits d.exponent
  | none => ⟨0, 0⟩

end RoundingInterval
end LineCalc
