import LineCalc.Binary64
import LineCalc.Decimal

/-!
How a double is written. The digits are the fewest that read back; a layout says when they are written with an
exponent. Without an exponent, a whole number below `10 ^ 16` shows its point and one zero.
-/

namespace LineCalc.Decimal

/-- The powers of ten of the leading digit that are written without an exponent. -/
structure Layout where
  plainFrom : Option Int := none
  plainBelow : Option Int := none
deriving DecidableEq, Repr

/-- Doubles as results: never an exponent. -/
def Layout.plain : Layout := {}

/-- Doubles as literals: an exponent below `10 ^ -4` and from `10 ^ 16`. -/
def Layout.literal : Layout := ⟨some (-4), some 16⟩

/-- Whether a number whose leading digit stands for `10 ^ power` is written without an exponent. -/
def Layout.isPlain (l : Layout) (power : Int) : Bool :=
  l.plainFrom.all (· ≤ power) && l.plainBelow.all (power < ·)

/-- Without an exponent. -/
def positional (d : Decimal) : List Char :=
  let ds := Nat.toDigits 10 d.digits
  if 0 ≤ d.exponent then
    ds ++ List.replicate d.exponent.toNat '0' ++ if d.power < 16 then ['.', '0'] else []
  else
    let places := (-d.exponent).toNat
    let padded := List.replicate (places + 1 - ds.length) '0' ++ ds
    padded.take (padded.length - places) ++ '.' :: padded.drop (padded.length - places)

/-- One digit before the point, and an exponent. The point is left out when nothing follows it. -/
def scientific (d : Decimal) : List Char :=
  let mantissa := match Nat.toDigits 10 d.digits with
    | first :: second :: more => first :: '.' :: second :: more
    | ds => ds
  mantissa ++ 'e' :: (toString d.power).toList

def Layout.write (l : Layout) (d : Decimal) : List Char :=
  if d.digits = 0 ∨ l.isPlain d.power then d.positional else d.scientific

/-- The text of a double. A negative zero keeps its sign. -/
def Layout.writeFloat (l : Layout) (x : Float) : String :=
  match Binary64.ofFloat x with
  | .nan => "NaN"
  | .infinite negative => if negative then "-inf" else "inf"
  | .finite negative mantissa shift =>
    let d := if mantissa = 0 then ⟨0, 0⟩ else (RoundingInterval.ofDouble mantissa shift).shortest
    String.ofList ((if negative then ['-'] else []) ++ l.write d)

end LineCalc.Decimal
