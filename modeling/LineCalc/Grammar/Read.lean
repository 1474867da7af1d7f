import LineCalc.Parser

/-!
Reading expressions from lexemes, by recursive descent along the grammar. A rule reads as far as it can and
returns the expression or a refusal, with the parser as it is then. `VAR`, `NOT`, a sign, `^` and a
parenthesis each nest what follows them one level deeper, and each step of a repetition goes one more level
down until the repetition ends. Every call has less to read than its caller or belongs to a phrase of lower
rank, so the recursion ends.
-/

namespace LineCalc

/-- What can be asked of a parser: to read by a rule, to do so one level deeper, or to go on with a repetition
that has come to the expression `left`. -/
inductive Phrase where
  | rule (r : Rule)
  | nested (r : Rule)
  | fold (l : Level) (left : Expr)

namespace Phrase

/-- Orders the phrases by the calls that read nothing: such a call goes to a phrase of lower rank. -/
def rank : Phrase → Nat
  | fold _ _ => 0
  | rule .atom => 1
  | rule .power => 2
  | rule .factor => 3
  | rule (.repetition .product) => 4
  | rule (.repetition .sum) => 5
  | rule (.repetition .comparison) => 6
  | rule .condition => 7
  | rule (.repetition .logic) => 8
  | rule .expression => 9
  | nested _ => 10

theorem rank_operand_lt (l : Level) : (rule l.operand).rank < (rule (.repetition l)).rank := by
  cases l <;> decide

theorem rank_rule_lt (r : Rule) : (rule r).rank < 10 := by
  cases r with
  | repetition l => cases l <;> decide
  | _ => decide

/-- What came of a phrase read at `p`, and the parser afterwards. Nothing that was read comes back. -/
structure Outcome (p : Parser) where
  result : Except SyntaxError Expr
  after : Parser
  length_le : after.rest.length ≤ p.rest.length

namespace Outcome

variable {p q : Parser}

/-- The outcome as that of a phrase that began earlier. -/
def since (o : Outcome q) (h : q.rest.length ≤ p.rest.length) :
    Outcome p :=
  { o with length_le := Nat.le_trans o.length_le h }

/-- The outcome with `f` applied to the expression. -/
def map (f : Expr → Expr) (o : Outcome p) : Outcome p := { o with result := o.result.map f }

/-- The outcome with the depth set back to `depth`. -/
def atDepth (o : Outcome p) (depth : Nat) : Outcome p := { o with after := { o.after with depth } }

def orExpected (o : Outcome p) (classes : List TokenClass) : Outcome p :=
  { o with result := p.orExpected classes o.result o.after }

end Outcome

/-- Reads a phrase. -/
def read (phrase : Phrase) (p : Parser) : Outcome p :=
  match phrase with
  | nested r =>
    if p.limit ≤ p.depth then ⟨p.tooDeep, p, Nat.le_refl _⟩
    else
      let o := read (rule r) p.enter
      ⟨o.result, o.after.leave, o.length_le⟩
  | rule .expression =>
    match p.next? (Token.is? (.keyword .var)) with
    | some (_, ⟨p₁, h₁⟩) =>
      match p₁.next? Token.identifier? with
      | some (x, ⟨p₂, h₂⟩) =>
        match p₂.next? (Token.is? .equal) with
        | some (_, ⟨p₃, h₃⟩) => ((read (nested .expression) p₃).map (.assign x)).since (by omega)
        | none => ⟨p₂.refusal (.expected [.exactly .equal]), p₂, by omega⟩
      | none => ⟨p₁.refusal (.expected [.identifier]), p₁, by omega⟩
    | none => (read (rule (.repetition .logic)) p).orExpected TokenClass.expressionStart
  | rule .condition =>
    match p.next? UnaryOp.negation? with
    | some (op, ⟨p₁, h₁⟩) => ((read (nested .condition) p₁).map (.unary op)).since (by omega)
    | none => (read (rule (.repetition .comparison)) p).orExpected TokenClass.conditionStart
  | rule .factor =>
    match p.next? UnaryOp.sign? with
    | some (op, ⟨p₁, h₁⟩) => ((read (nested .factor) p₁).map (.unary op)).since (by omega)
    | none => read (rule .power) p
  | rule .power =>
    match read (rule .atom) p with
    | ⟨.ok base, p₁, h₁⟩ =>
      match p₁.next? BinaryOp.power? with
      | some (op, ⟨p₂, h₂⟩) => ((read (nested .factor) p₂).map (.binary base op)).since (by omega)
      | none => ⟨.ok base, p₁, h₁⟩
    | ⟨.error e, p₁, h₁⟩ => ⟨.error e, p₁, h₁⟩
  | rule .atom =>
    match p.next? Token.number?, p.next? Token.identifier?, p.next? (Token.is? .leftParen) with
    | some (n, ⟨p₁, h₁⟩), _, _ => ⟨.ok (.number n), p₁, by omega⟩
    | none, some (x, ⟨p₁, h₁⟩), _ => ⟨.ok (.name x), p₁, by omega⟩
    | none, none, some (_, ⟨p₁, h₁⟩) =>
      match read (nested .expression) p₁ with
      | ⟨.ok e, p₂, h₂⟩ =>
        match p₂.next? (Token.is? .rightParen) with
        | some (_, ⟨p₃, h₃⟩) => ⟨.ok e, p₃, by omega⟩
        | none => ⟨p₂.refusal (.expected [.exactly .rightParen]), p₂, by omega⟩
      | ⟨.error e, p₂, h₂⟩ => ⟨.error e, p₂, by omega⟩
    | none, none, none => ⟨p.refusal (.expected TokenClass.operandStart), p, Nat.le_refl _⟩
  | rule (.repetition l) =>
    match read (rule l.operand) p with
    | ⟨.ok left, p₁, h₁⟩ => ((read (fold l left) p₁).atDepth p₁.depth).since h₁
    | ⟨.error e, p₁, h₁⟩ => ⟨.error e, p₁, h₁⟩
  | fold l left =>
    match p.next? l.operator? with
    | some (op, ⟨p₁, h₁⟩) =>
      if p₁.limit ≤ p₁.depth then ⟨p₁.tooDeep, p₁, by omega⟩
      else
        match read (rule l.operand) p₁.enter with
        | ⟨.ok right, p₂, h₂⟩ =>
          (read (fold l (.binary left op right)) p₂).since (by rw [Parser.enter_rest] at h₂; omega)
        | ⟨.error e, p₂, h₂⟩ => ⟨.error e, p₂, by rw [Parser.enter_rest] at h₂; omega⟩
    | none => ⟨.ok left, p, Nat.le_refl _⟩
termination_by 11 * p.rest.length + phrase.rank
decreasing_by
  all_goals
    have hrule := rank_rule_lt
    have hoperand := rank_operand_lt
    grind [rank, Parser.enter_rest]

end Phrase

namespace Parser

/-- Reads one expression and leaves the rest. -/
def expression (p : Parser) : Except SyntaxError Expr × Parser :=
  let o := Phrase.read (.nested .expression) p
  (o.result, o.after)

/-- Reads one expression that all lexemes belong to. -/
def whole (p : Parser) : Except SyntaxError Expr × Parser :=
  match p.expression with
  | (.ok e, p) => (if p.atEnd then .ok e else p.refusal (.expected TokenClass.operators), p)
  | refused => refused

theorem whole_of_ok {p q : Parser} {e : Expr} (h : p.expression = (.ok e, q)) :
    p.whole = (if q.atEnd then .ok e else q.refusal (.expected TokenClass.operators), q) := by
  rw [whole, h]

theorem whole_of_error {p q : Parser} {e : SyntaxError} (h : p.expression = (.error e, q)) :
    p.whole = (.error e, q) := by
  rw [whole, h]

end Parser

/-- The expression that the lexemes are. -/
def Expr.ofLexemes? (limit : Nat) (lexemes : List Lexeme) : Except SyntaxError Expr :=
  (Parser.ofLexemes lexemes limit).whole.1

end LineCalc
