import LineCalc.Expr
import LineCalc.Token.Class

/-!
The grammar of expressions, from the loosest binding rule to the tightest:

    expression  = "VAR" identifier "=" expression | logic
    logic       = condition { ("AND" | "OR") condition }
    condition   = "NOT" condition | comparison
    comparison  = sum { ("==" | "!=" | "<" | ">" | "<=" | ">=") sum }
    sum         = product { ("+" | "-") product }
    product     = factor { ("*" | "/") factor }
    factor      = ("+" | "-") factor | power
    power       = atom [ "^" factor ]
    atom        = number | identifier | "(" expression ")"

The repetitions group to the left and the power to the right. The next token alone decides which alternative of
a rule applies, and the lists below say which tokens those are.
-/

namespace LineCalc

/-- The repetitions of the grammar: operands of one rule, joined to the left by operators. -/
inductive Level where
  | logic
  | comparison
  | sum
  | product
deriving DecidableEq, Repr

/-- The rules of the grammar. -/
inductive Rule where
  | expression
  | condition
  | factor
  | power
  | atom
  | repetition (l : Level)
deriving DecidableEq, Repr

namespace Level

/-- The rule of the operands. -/
def operand : Level → Rule
  | logic => .condition
  | comparison => .repetition .sum
  | sum => .repetition .product
  | product => .factor

/-- The operator that a token stands for between two operands. -/
def operator? : Level → Token → Option BinaryOp
  | logic, .keyword .and => some .and
  | logic, .keyword .or => some .or
  | comparison, .equalEqual => some .equal
  | comparison, .bangEqual => some .notEqual
  | comparison, .less => some .less
  | comparison, .greater => some .greater
  | comparison, .lessEqual => some .lessEqual
  | comparison, .greaterEqual => some .greaterEqual
  | sum, .plus => some .add
  | sum, .minus => some .sub
  | product, .star => some .mul
  | product, .slash => some .div
  | _, _ => none

end Level

/-- The negation that a token stands for before a condition. -/
def UnaryOp.negation? : Token → Option UnaryOp
  | .keyword .not => some not
  | _ => none

/-- The sign that a token stands for before a factor. -/
def UnaryOp.sign? : Token → Option UnaryOp
  | .plus => some plus
  | .minus => some minus
  | _ => none

/-- The operator that a token stands for behind an atom. -/
def BinaryOp.power? : Token → Option BinaryOp
  | .caret => some pow
  | _ => none

namespace TokenClass

/-- What an operand can start with: a factor, the operand of every operator from `+` on. -/
def operandStart : List TokenClass :=
  [int, float, identifier, exactly .plus, exactly .minus, exactly .leftParen]

/-- What a condition can start with. -/
def conditionStart : List TokenClass := operandStart ++ [exactly (.keyword .not)]

/-- What an expression can start with. -/
def expressionStart : List TokenClass := exactly (.keyword .var) :: conditionStart

/-- What a finished expression can go on with: the operators, from sums to logic. -/
def operators : List TokenClass :=
  [.add, .sub, .mul, .div, .pow, .equal, .notEqual, .less, .greater, .lessEqual, .greaterEqual, .and,
    BinaryOp.or].map fun op => exactly op.token

end TokenClass
end LineCalc
