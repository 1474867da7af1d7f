import LineCalc.Num.Order
import LineCalc.Operator

/-!
The operations on numbers. Integers stay integers where the result is one by nature, and the result is exact or
refused; division, and every operation with a double in it, is done in doubles. Comparisons and logic give the
integers 1 and 0.
-/

namespace LineCalc

/-- Why an operation has no result. -/
inductive ArithmeticError where
  | divisionByZero
  | overflow
deriving DecidableEq, Repr

def ArithmeticError.message : ArithmeticError → String
  | divisionByZero => "Division by zero"
  | overflow => "Integer overflow"

/-- The power of an integer by repeated squaring. It stops at the first product that does not fit. -/
def squarePow? (base : Int64) (exponent : Nat) : Option Int64 :=
  if exponent = 0 then some 1
  else if exponent = 1 then some base
  else do
    let square ← fitInt? (base.toInt * base.toInt)
    let even ← squarePow? square (exponent / 2)
    if exponent % 2 = 0 then some even else fitInt? (even.toInt * base.toInt)
termination_by exponent

/-- The power of an integer to an exponent that is not negative, if it fits. The bases 0, 1 and -1 have all
powers. For any other base, an exponent of more than 32 bits is refused unseen. -/
def powInt? (base exponent : Int64) : Option Int64 :=
  if exponent = 0 then some 1
  else if base = 0 ∨ base = 1 then some base
  else if base = -1 then some (if exponent % 2 = 0 then 1 else -1)
  else if 0 ≤ exponent.toInt ∧ exponent.toInt < UInt32.size then squarePow? base exponent.toInt.toNat
  else none

namespace Num

def ofBool (b : Bool) : Num := int (if b then 1 else 0)

/-- Every number but zero is true. -/
def isTrue (a : Num) : Bool := !a.isZero

def isNegative : Num → Bool
  | int n => decide (n < 0)
  | float x => decide (x < 0)

/-- Exactly on integers, on the nearest doubles otherwise. -/
def arithmetic (onInts : Int → Int → Int) (onFloats : Float → Float → Float) (a b : Num) :
    Except ArithmeticError Num :=
  match a, b with
  | int m, int n =>
    match fitInt? (onInts m.toInt n.toInt) with
    | some r => .ok (int r)
    | none => .error .overflow
  | a, b => .ok (float (onFloats a.toFloat b.toFloat))

/-- The quotient, always a double. -/
def divide (a b : Num) : Except ArithmeticError Num :=
  if b.isZero then .error .divisionByZero else .ok (float (a.toFloat / b.toFloat))

/-- The power, an integer for an integer base and an integer exponent that is not negative. -/
def power (a b : Num) : Except ArithmeticError Num :=
  if a.isZero && b.isNegative then .error .divisionByZero
  else
    match a, b with
    | int base, int exponent =>
      if 0 ≤ exponent then
        match powInt? base exponent with
        | some r => .ok (int r)
        | none => .error .overflow
      else .ok (float (base.toFloat.pow exponent.toFloat))
    | a, b => .ok (float (a.toFloat.pow b.toFloat))

def not (a : Num) : Num := ofBool !a.isTrue

/-- The result of a binary operation. -/
def apply (op : BinaryOp) (a b : Num) : Except ArithmeticError Num :=
  match op with
  | .add => arithmetic (· + ·) (· + ·) a b
  | .sub => arithmetic (· - ·) (· - ·) a b
  | .mul => arithmetic (· * ·) (· * ·) a b
  | .div => divide a b
  | .pow => power a b
  | .equal => .ok (ofBool (a.compare? b == some .eq))
  | .notEqual => .ok (ofBool (a.compare? b != some .eq))
  | .less => .ok (ofBool (a.compare? b == some .lt))
  | .greater => .ok (ofBool (a.compare? b == some .gt))
  | .lessEqual => .ok (ofBool (a.compare? b == some .lt || a.compare? b == some .eq))
  | .greaterEqual => .ok (ofBool (a.compare? b == some .gt || a.compare? b == some .eq))
  | .and => .ok (ofBool (a.isTrue && b.isTrue))
  | .or => .ok (ofBool (a.isTrue || b.isTrue))

end Num
end LineCalc
