import LineCalc.Token

/-!
The operators and the tokens that spell them. The signs are spelled like the sum's operators.
-/

namespace LineCalc

inductive UnaryOp where
  | plus
  | minus
  | not
deriving DecidableEq, Repr

inductive BinaryOp where
  | or
  | and
  | equal
  | notEqual
  | less
  | greater
  | lessEqual
  | greaterEqual
  | add
  | sub
  | mul
  | div
  | pow
deriving DecidableEq, Repr

def UnaryOp.token : UnaryOp → Token
  | plus => .plus
  | minus => .minus
  | not => .keyword .not

def BinaryOp.token : BinaryOp → Token
  | or => .keyword .or
  | and => .keyword .and
  | equal => .equalEqual
  | notEqual => .bangEqual
  | less => .less
  | greater => .greater
  | lessEqual => .lessEqual
  | greaterEqual => .greaterEqual
  | add => .plus
  | sub => .minus
  | mul => .star
  | div => .slash
  | pow => .caret

end LineCalc
