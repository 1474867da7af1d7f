/-!
Doubles read from their bits. Every finite double is a whole number of units of `2 ^ -1074`, the smallest
positive double, so its exact value is an integer (`Binary64.units`) and needs no rational arithmetic.
-/

namespace LineCalc

/-- What the bits of a double say. A finite one is `mantissa * 2 ^ shift` units of `2 ^ -1074`. -/
inductive Binary64 where
  | nan
  | infinite (negative : Bool)
  | finite (negative : Bool) (mantissa shift : Nat)
deriving DecidableEq, Repr

namespace Binary64

/-- The number one is `2 ^ 1074` units. -/
def one : Nat := 1 <<< 1074

/-- Reads sign, exponent and fraction. The exponent 0 marks a mantissa without the leading bit, the exponent
2047 an infinity or no number. -/
def ofBits (bits : UInt64) : Binary64 :=
  let negative := decide (1 <<< 63 ≤ bits.toNat)
  let exponent := (bits.toNat >>> 52) % 2048
  let fraction := bits.toNat % (1 <<< 52)
  if exponent = 2047 then if fraction = 0 then infinite negative else nan
  else if exponent = 0 then finite negative fraction 0
  else finite negative ((1 <<< 52) + fraction) (exponent - 1)

def ofFloat (x : Float) : Binary64 := ofBits x.toBits

/-- The signed count of units of a finite double. -/
def units (negative : Bool) (mantissa shift : Nat) : Int :=
  if negative then -((mantissa <<< shift : Nat) : Int) else ((mantissa <<< shift : Nat) : Int)

end Binary64
end LineCalc
