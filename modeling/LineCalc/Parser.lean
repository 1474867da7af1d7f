import LineCalc.Grammar

/-!
Parsers. A parser is a list of lexemes of which some have been read; what has not been read, after a refusal too,
is there for the next call. It counts how deeply the expression being read is nested, and refuses to go deeper than
its limit. A refusal is located at the first lexeme that has not been read, or behind the last one.
-/

namespace LineCalc

/-- Why a list of lexemes is no expression. -/
inductive SyntaxError.Cause where
  | expected (classes : List TokenClass)
  | tooDeep (limit : Nat)
deriving DecidableEq

/-- Where and why reading stopped. -/
structure SyntaxError where
  cause : SyntaxError.Cause
  span : Span
deriving DecidableEq

def SyntaxError.Cause.message : SyntaxError.Cause → String
  | expected classes => "Expected " ++ TokenClass.enumerate classes
  | tooDeep limit => "Maximum nesting depth of " ++ toString limit ++ " exceeded"

namespace Token

/-- The meaning of a token as the word `t`. -/
def is? (t u : Token) : Option Unit := if u = t then some () else none

/-- The number that a token is. -/
def number? : Token → Option Num
  | number n => some n
  | _ => none

/-- The name that a token is. -/
def identifier? : Token → Option String
  | identifier x => some x
  | _ => none

end Token

/-- What is left to read, where the whole list ends, how deeply the reading is nested, and how deeply it may be. -/
structure Parser where
  rest : List Lexeme
  stop : Position
  depth : Nat := 0
  limit : Nat

namespace Parser

/-- How deeply expressions may nest unless told otherwise. -/
def defaultLimit : Nat := 1000

/-- A parser that has read nothing. -/
def ofLexemes (lexemes : List Lexeme) (limit : Nat) : Parser where
  rest := lexemes
  stop := lexemes.getLast?.elim {} (·.span.stop)
  limit := limit

@[simp] theorem ofLexemes_rest (lexemes : List Lexeme) (limit : Nat) : (ofLexemes lexemes limit).rest = lexemes := rfl

@[simp] theorem ofLexemes_depth (lexemes : List Lexeme) (limit : Nat) : (ofLexemes lexemes limit).depth = 0 := rfl

@[simp] theorem ofLexemes_limit (lexemes : List Lexeme) (limit : Nat) : (ofLexemes lexemes limit).limit = limit := rfl

/-- The span of the next lexeme. -/
def here (p : Parser) : Span :=
  match p.rest with
  | l :: _ => l.span
  | [] => .emptyAt p.stop

/-- Whether only the end token is left, or nothing. -/
def atEnd (p : Parser) : Bool :=
  match p.rest with
  | l :: _ => decide (l.value = .eof)
  | [] => true

/-- The parser with other lexemes left to read. -/
def upTo (p : Parser) (rest : List Lexeme) : Parser := { p with rest }

@[simp] theorem upTo_rest (p : Parser) (ls : List Lexeme) : (p.upTo ls).rest = ls := rfl

@[simp] theorem upTo_stop (p : Parser) (ls : List Lexeme) : (p.upTo ls).stop = p.stop := rfl

@[simp] theorem upTo_depth (p : Parser) (ls : List Lexeme) : (p.upTo ls).depth = p.depth := rfl

@[simp] theorem upTo_limit (p : Parser) (ls : List Lexeme) : (p.upTo ls).limit = p.limit := rfl

@[simp] theorem upTo_upTo (p : Parser) (ls ms : List Lexeme) : (p.upTo ls).upTo ms = p.upTo ms := rfl

/-- The next lexeme, if `f` has a meaning for its token, and the parser behind it, which has less to read. -/
def next? (p : Parser) (f : Token → Option α) :
    Option (Located α × { q : Parser // q.rest.length < p.rest.length }) :=
  match h : p.rest with
  | [] => none
  | ⟨token, span⟩ :: ls => (f token).map (⟨·, span⟩, ⟨p.upTo ls, by simp [upTo]⟩)

/-- One level deeper. -/
def enter (p : Parser) : Parser := { p with depth := p.depth + 1 }

@[simp] theorem enter_rest (p : Parser) : p.enter.rest = p.rest := rfl

@[simp] theorem enter_stop (p : Parser) : p.enter.stop = p.stop := rfl

@[simp] theorem enter_depth (p : Parser) : p.enter.depth = p.depth + 1 := rfl

@[simp] theorem enter_limit (p : Parser) : p.enter.limit = p.limit := rfl

/-- One level less deep. -/
def leave (p : Parser) : Parser := { p with depth := p.depth - 1 }

@[simp] theorem leave_rest (p : Parser) : p.leave.rest = p.rest := rfl

@[simp] theorem leave_stop (p : Parser) : p.leave.stop = p.stop := rfl

@[simp] theorem leave_depth (p : Parser) : p.leave.depth = p.depth - 1 := rfl

@[simp] theorem leave_limit (p : Parser) : p.leave.limit = p.limit := rfl

/-- The refusal at the next lexeme. -/
def refusal (p : Parser) (cause : SyntaxError.Cause) : Except SyntaxError α := .error ⟨cause, p.here⟩

/-- The refusal to go deeper. -/
def tooDeep (p : Parser) : Except SyntaxError α := p.refusal (.tooDeep p.limit)

/-- What an attempt that began at `p` and came to `q` amounts to: a refusal that has read nothing becomes one that
names all that could have come next. A refusal that has read something is kept. -/
def orExpected (p : Parser) (classes : List TokenClass) (result : Except SyntaxError α) (q : Parser) :
    Except SyntaxError α :=
  match result with
  | .ok a => .ok a
  | .error e => if q.rest.length = p.rest.length then p.refusal (.expected classes) else .error e

end Parser
end LineCalc
