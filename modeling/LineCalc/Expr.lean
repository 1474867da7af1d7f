import LineCalc.Operator

/-!
Expressions. Leaves and operators know where they were written; the span of a node is not stored but computed
from its parts (`Expr.span`), from its first lexeme to its last one. Parentheses are no nodes.
-/

namespace LineCalc

inductive Expr where
  | number (n : Located Num)
  | name (x : Located String)
  | assign (x : Located String) (value : Expr)
  | unary (op : Located UnaryOp) (operand : Expr)
  | binary (left : Expr) (op : Located BinaryOp) (right : Expr)
deriving DecidableEq

namespace Expr

/-- Where the first lexeme of the expression starts. An assignment starts at its name. -/
def start : Expr → Position
  | number n => n.span.start
  | name x => x.span.start
  | assign x _ => x.span.start
  | unary op _ => op.span.start
  | binary left _ _ => left.start

/-- Where the last lexeme of the expression ends. -/
def stop : Expr → Position
  | number n => n.span.stop
  | name x => x.span.stop
  | assign _ value => value.stop
  | unary _ operand => operand.stop
  | binary _ _ right => right.stop

/-- The part of the text that the expression was read from. -/
def span (e : Expr) : Span := ⟨e.start, e.stop⟩

@[simp] theorem span_number (n : Located Num) : (number n).span = n.span := rfl

@[simp] theorem span_name (x : Located String) : (name x).span = x.span := rfl

@[simp] theorem span_assign (x : Located String) (value : Expr) :
    (assign x value).span = x.span.enclose value.span := rfl

@[simp] theorem span_unary (op : Located UnaryOp) (operand : Expr) :
    (unary op operand).span = op.span.enclose operand.span := rfl

@[simp] theorem span_binary (left : Expr) (op : Located BinaryOp) (right : Expr) :
    (binary left op right).span = left.span.enclose right.span := rfl

/-- As `span`, by way of the spans of the parts, which have to be in order wherever two are joined. -/
def span? : Expr → Option Span
  | number n => some n.span
  | name x => some x.span
  | assign x value => value.span?.bind x.span.enclose?
  | unary op operand => operand.span?.bind op.span.enclose?
  | binary left _ right => left.span?.bind fun a => right.span?.bind a.enclose?

/-- The expression with every operation in parentheses. -/
def text : Expr → String
  | number n => n.value.literalText
  | name x => x.value
  | assign x value => "(" ++ Keyword.var.spelling ++ " " ++ x.value ++ " = " ++ value.text ++ ")"
  | unary op operand => "(" ++ op.value.token.spelling ++ " " ++ operand.text ++ ")"
  | binary left op right =>
    "(" ++ left.text ++ " " ++ op.value.token.spelling ++ " " ++ right.text ++ ")"

/-- The expression and all expressions in it, each before its parts, left before right. -/
def preorder : Expr → List Expr
  | e@(number _) => [e]
  | e@(name _) => [e]
  | e@(assign _ value) => e :: value.preorder
  | e@(unary _ operand) => e :: operand.preorder
  | e@(binary left _ right) => e :: (left.preorder ++ right.preorder)

end Expr
end LineCalc
