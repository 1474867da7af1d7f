import LineCalc.Num

/-!
The exact order of numbers. Finite doubles are whole numbers of units of `2 ^ -1074`, so two of them are compared as
integers. Infinities lie beyond every finite number, the two zeros are equal, and a double that is no number is not
comparable with anything. An integer is not rounded to a double to be compared with one. A double out of the range of
the integers lies beyond all of them; any other one has a whole part that is a 64-bit integer, and what it has
besides decides only if that is the integer itself.
-/

namespace LineCalc

/-- The values of doubles, from smallest to largest. A finite value is counted in units of `2 ^ -1074`. -/
inductive Extended where
  | negInfinity
  | finite (units : Int)
  | infinity
deriving DecidableEq, Ord, Repr

namespace Binary64

/-- The value, unless the double is no number. -/
def extended? : Binary64 → Option Extended
  | nan => none
  | infinite negative => some (if negative then .negInfinity else .infinity)
  | finite negative mantissa shift => some (.finite (units negative mantissa shift))

/-- The first double above all 64-bit integers is `2 ^ 63`, which is `2 ^ 1137` units. -/
def limit : Nat := 1 <<< 1137

end Binary64

/-- How an integer compares with a double. The whole part is the double without its fraction, towards zero. -/
def Extended.compareInt (n : Int64) : Extended → Ordering
  | negInfinity => .gt
  | infinity => .lt
  | finite units =>
    if Binary64.limit ≤ units then .lt
    else if units < -Binary64.limit then .gt
    else
      let whole := units.tdiv Binary64.one
      (compare n (.ofInt whole)).then (compare 0 (units - whole * Binary64.one))

namespace Num

/-- How two numbers compare, if they do. -/
def compare? : Num → Num → Option Ordering
  | int a, int b => some (compare a b)
  | int a, float y => (Binary64.ofFloat y).extended?.map (·.compareInt a)
  | float x, int b => (Binary64.ofFloat x).extended?.map fun x => (x.compareInt b).swap
  | float x, float y =>
    match (Binary64.ofFloat x).extended?, (Binary64.ofFloat y).extended? with
    | some x, some y => some (compare x y)
    | _, _ => none

end Num
end LineCalc
