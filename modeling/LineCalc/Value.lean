import LineCalc.Num.Arithmetic

/-!
Values: numbers that know which part of the text they were computed from and which frame computed them. An
operation on values is the operation on their numbers; its result belongs to the frame of the left operand and
gets a span only where it is evaluated. A failure is located at the operand to blame: a zero divisor and a
negative exponent of zero are reported at the right operand, an overflow at both.
-/

namespace LineCalc

/-- A frame of an environment, numbered in order of creation. -/
structure FrameId where
  index : Nat
deriving DecidableEq, Repr

structure Value where
  num : Num
  span : Span := {}
  frame : Option FrameId := none
deriving DecidableEq

/-- An operation that failed, where, and in the frame of which value. -/
structure Fault where
  error : ArithmeticError
  span : Span
  frame : Option FrameId
deriving DecidableEq

namespace Value

/-- The result of a binary operation. -/
def apply (op : BinaryOp) (a b : Value) : Except Fault Value :=
  match Num.apply op a.num b.num with
  | .ok n => .ok { num := n, frame := a.frame }
  | .error .divisionByZero => .error ⟨.divisionByZero, b.span, a.frame⟩
  | .error .overflow => .error ⟨.overflow, a.span.enclose b.span, a.frame⟩

def not (a : Value) : Value := { num := a.num.not, frame := a.frame }

/-- The negative of a value, as its product with -1: the least integer has none. -/
def negate (a : Value) : Except Fault Value :=
  a.apply .mul { num := .int (-1), span := a.span }

/-- The result of a unary operation. -/
def applyUnary (op : UnaryOp) (a : Value) : Except Fault Value :=
  match op with
  | .plus => .ok a
  | .minus => a.negate
  | .not => .ok a.not

end Value
end LineCalc
