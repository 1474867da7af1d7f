import LineCalc.Proofs.ReadingRun

/-!
The same lexemes at other places. Reading looks at tokens only, so lexemes whose positions are all moved in one
way are read as the same expression with its positions moved in that way, and refused for the same reason at the
moved place (`Reads.move`). Moving every position to the start of the text forgets where an expression stands and
keeps what it is.
-/

namespace LineCalc

variable {f : Position → Position}

/-- The place `n` lines further down. -/
def Position.later (n : UInt64) (p : Position) : Position := { p with line := p.line + n }

theorem Position.later_zero : later 0 = id := by
  funext p
  rw [later, UInt64.add_zero]
  rfl

def Span.move (f : Position → Position) (s : Span) : Span := ⟨f s.start, f s.stop⟩

theorem Span.move_later_zero (s : Span) : s.move (Position.later 0) = s := by
  rw [Position.later_zero]
  rfl

def Located.move (f : Position → Position) (a : Located α) : Located α := ⟨a.value, a.span.move f⟩

@[simp] theorem Located.value_move (a : Located α) : (a.move f).value = a.value := rfl

@[simp] theorem Located.span_move (a : Located α) : (a.move f).span = a.span.move f := rfl

namespace Expr

/-- The expression with all its lexemes moved. -/
def move (f : Position → Position) : Expr → Expr
  | number n => number (n.move f)
  | name x => name (x.move f)
  | assign x value => assign (x.move f) (value.move f)
  | unary op operand => unary (op.move f) (operand.move f)
  | binary left op right => binary (left.move f) (op.move f) (right.move f)

theorem start_move (e : Expr) : (e.move f).start = f e.start := by
  induction e with
  | binary left op right ih _ => exact ih
  | _ => rfl

theorem stop_move (e : Expr) : (e.move f).stop = f e.stop := by
  induction e with
  | number | name => rfl
  | assign _ _ ih | unary _ _ ih | binary _ _ _ _ ih => exact ih

@[simp] theorem span_move (e : Expr) : (e.move f).span = e.span.move f := by
  rw [span, span, start_move, stop_move]
  rfl

/-- What the expression is, wherever it stands. -/
def unlocated (e : Expr) : Expr := e.move fun _ => {}

end Expr

def SyntaxError.move (f : Position → Position) (e : SyntaxError) : SyntaxError := ⟨e.cause, e.span.move f⟩

/-- What was read, at its moved place. -/
def Expr.moveResult (f : Position → Position) : Except SyntaxError Expr → Except SyntaxError Expr
  | .ok e => .ok (e.move f)
  | .error e => .error (e.move f)

/-- The parser over the moved lexemes. -/
def Parser.move (f : Position → Position) (p : Parser) : Parser :=
  { p with rest := p.rest.map (Located.move f), stop := f p.stop }

/-- The phrase, with what a repetition has come to moved. -/
def Phrase.move (f : Position → Position) : Phrase → Phrase
  | fold l left => fold l (left.move f)
  | phrase => phrase

namespace Parser

variable {p q : Parser}

theorem rest_move : (p.move f).rest = p.rest.map (Located.move f) := rfl

theorem rest_move_of_cons {token : Token} {s : Span} {ls : List Lexeme} (hrest : p.rest = ⟨token, s⟩ :: ls) :
    (p.move f).rest = ⟨token, s.move f⟩ :: ls.map (Located.move f) := by
  rw [rest_move, hrest]
  rfl

theorem here_move : (p.move f).here = p.here.move f := by
  obtain ⟨rest, stop, depth, limit⟩ := p
  cases rest <;> rfl

theorem refusal_move (cause : SyntaxError.Cause) :
    (p.move f).refusal cause = Expr.moveResult f (p.refusal cause) := by
  rw [refusal, refusal, here_move]
  rfl

theorem orExpected_move (classes : List TokenClass) (result : Except SyntaxError Expr) :
    (p.move f).orExpected classes (Expr.moveResult f result) (q.move f) =
      Expr.moveResult f (p.orExpected classes result q) := by
  cases result with
  | ok e => rfl
  | error e =>
      simp only [orExpected, Expr.moveResult, rest_move, List.length_map]
      split
      · exact refusal_move _
      · rfl

theorem atEnd_move : (p.move f).atEnd = p.atEnd := by
  obtain ⟨rest, stop, depth, limit⟩ := p
  cases rest <;> rfl

end Parser

theorem Expr.moveResult_map {g h : Expr → Expr} (hmove : ∀ e, (g e).move f = h (e.move f))
    (result : Except SyntaxError Expr) :
    (Expr.moveResult f result).map h = Expr.moveResult f (result.map g) := by
  cases result with
  | ok e =>
      show Except.ok _ = Except.ok _
      rw [hmove]
  | error e => rfl

theorem Lexeme.NoneNext.move {g : Token → Option α} {ls : List Lexeme} (h : NoneNext g ls) :
    NoneNext g (ls.map (Located.move f)) := by
  cases ls with
  | nil => exact nofun
  | cons l ls =>
      intro l' hl'
      cases hl'
      exact h l rfl

namespace Phrase

open LineCalc.Parser

variable {phrase : Phrase} {p q : Parser} {result : Except SyntaxError Expr}

theorem Reads.move (h : Reads phrase p result q) :
    Reads (phrase.move f) (p.move f) (Expr.moveResult f result) (q.move f) := by
  induction h with
  | tooDeep hdepth =>
      rw [Parser.tooDeep, ← refusal_move]
      exact .tooDeep hdepth
  | @deeper r p _ _ hdepth _ ih => exact .deeper (p := p.move f) hdepth ih
  | noName hrest hname =>
      rw [← refusal_move]
      exact .noName (rest_move_of_cons hrest) hname.move
  | @noEqual p s ls x hrest hequal =>
      rw [← refusal_move]
      exact .noEqual (x := x.move f) (rest_move_of_cons hrest) hequal.move
  | @assign p s t ls result q x hrest _ ih =>
      rw [← Expr.moveResult_map (h := .assign (x.move f)) (fun _ => rfl)]
      exact .assign (rest_move_of_cons hrest) ih
  | logic hvar _ ih =>
      rw [← orExpected_move]
      exact .logic hvar.move ih
  | @negation p s ls result q hrest _ ih =>
      rw [← Expr.moveResult_map (h := .unary ⟨.not, s.move f⟩) (fun _ => rfl)]
      exact .negation (rest_move_of_cons hrest) ih
  | comparison hnot _ ih =>
      rw [← orExpected_move]
      exact .comparison hnot.move ih
  | @sign p token s op ls result q hsign hrest _ ih =>
      rw [← Expr.moveResult_map (h := .unary ⟨op, s.move f⟩) (fun _ => rfl)]
      exact .sign hsign (rest_move_of_cons hrest) ih
  | unsigned hsign _ ih => exact .unsigned hsign.move ih
  | noBase _ ih => exact .noBase ih
  | base _ hcaret ih => exact .base ih hcaret.move
  | @power p base p₁ s ls result q _ hcaret _ ihbase ih =>
      rw [← Expr.moveResult_map (h := .binary (base.move f) ⟨.pow, s.move f⟩) (fun _ => rfl)]
      exact .power ihbase (rest_move_of_cons hcaret) ih
  | @number p ls n hrest => exact .number (n := n.move f) (rest_move_of_cons hrest)
  | @name p ls x hrest => exact .name (x := x.move f) (rest_move_of_cons hrest)
  | parens hrest _ hclose ih => exact .parens (rest_move_of_cons hrest) ih (rest_move_of_cons hclose)
  | unclosed hrest _ hclose ih =>
      rw [← refusal_move]
      exact .unclosed (rest_move_of_cons hrest) ih hclose.move
  | noInner hrest _ ih => exact .noInner (rest_move_of_cons hrest) ih
  | noAtom hnumber hname hparen =>
      rw [← refusal_move]
      exact .noAtom hnumber.move hname.move hparen.move
  | noOperand _ ih => exact .noOperand ih
  | repetition _ _ ihoperand ih => exact .repetition ihoperand ih
  | foldEnd hoperator => exact .foldEnd hoperator.move
  | foldTooDeep hoperator hrest hdepth =>
      rw [Parser.tooDeep, ← refusal_move]
      exact .foldTooDeep hoperator (rest_move_of_cons hrest) hdepth
  | foldNoOperand hoperator hrest hdepth _ ih =>
      exact .foldNoOperand hoperator (rest_move_of_cons hrest) hdepth ih
  | foldStep hoperator hrest hdepth _ _ ihoperand ih =>
      exact .foldStep hoperator (rest_move_of_cons hrest) hdepth ihoperand ih

end Phrase

namespace Parser

variable {p q : Parser} {result : Except SyntaxError Expr}

theorem expression_move (h : p.expression = (result, q)) :
    (p.move f).expression = (Expr.moveResult f result, q.move f) := by
  have hrun := (Phrase.reads_iff.mpr (Prod.mk.inj h)).move (f := f)
  exact Prod.ext_iff.mpr (Phrase.reads_iff.mp hrun)

theorem whole_move (h : p.whole = (result, q)) :
    (p.move f).whole = (Expr.moveResult f result, q.move f) := by
  rcases hread : p.expression with ⟨e | e, q'⟩
  · rw [whole_of_error hread] at h
    cases h
    rw [whole_of_error (expression_move hread)]
    rfl
  · rw [whole_of_ok hread] at h
    cases h
    rw [whole_of_ok (expression_move hread), atEnd_move, refusal_move]
    split <;> rfl

theorem ofLexemes_move {lexemes : List Lexeme} (hne : lexemes ≠ []) (limit : Nat) :
    ofLexemes (lexemes.map (Located.move f)) limit = (ofLexemes lexemes limit).move f := by
  rw [ofLexemes, List.getLast?_map, List.getLast?_eq_some_getLast hne]
  rw [ofLexemes, List.getLast?_eq_some_getLast hne]
  rfl

end Parser

/-- A list at another place is read as the same expression at that place, or refused for the same reason there. -/
theorem Expr.ofLexemes?_move {lexemes : List Lexeme} (hne : lexemes ≠ []) (limit : Nat) :
    Expr.ofLexemes? limit (lexemes.map (Located.move f)) = Expr.moveResult f (Expr.ofLexemes? limit lexemes) := by
  rw [Expr.ofLexemes?, Parser.ofLexemes_move hne, Parser.whole_move rfl]
  rfl

end LineCalc
