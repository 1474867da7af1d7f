import LineCalc.Proofs.SyntaxErrorPlace
import Mathlib.Logic.Relation

/-!
The limit on the depth. Reading a phrase asks for other phrases to be read (`Call.Asks`), and a call can stop
at the limit (`Call.Stops`). If any call within a run does, its refusal is what the run ends with
(`Call.FailsAt.refusesAt`), since no attempt that it passes through on its way out replaces it. If none does, a
higher limit changes nothing (`Parser.whole_of_limit_le`). A call that is one level deeper has at least one
lexeme less to read (`Call.Asks.deepest_le`), so none stops at a limit greater than the number of lexemes.
-/

namespace LineCalc

open Lexeme Phrase Rule

/-- A phrase and the parser it is to be read at. -/
structure Call where
  phrase : Phrase
  parser : Parser

namespace Call

/-- Reading the first phrase comes to reading the second one: one constructor for each call that the reader makes
of itself, with what it has read by then. -/
inductive Asks : Call → Call → Prop
  | deeper {r p} (hdepth : p.depth < p.limit) : Asks ⟨nested r, p⟩ ⟨rule r, p.enter⟩
  | assign {p s t ls} {x : Located String}
      (hrest : p.rest = ⟨.keyword .var, s⟩ :: ⟨.identifier x.value, x.span⟩ :: ⟨.equal, t⟩ :: ls) :
      Asks ⟨rule .expression, p⟩ ⟨nested .expression, p.upTo ls⟩
  | logic {p} (hvar : NoneNext (Token.is? (.keyword .var)) p.rest) :
      Asks ⟨rule .expression, p⟩ ⟨rule (.repetition .logic), p⟩
  | negation {p s ls} (hrest : p.rest = ⟨.keyword .not, s⟩ :: ls) :
      Asks ⟨rule .condition, p⟩ ⟨nested .condition, p.upTo ls⟩
  | comparison {p} (hnot : NoneNext UnaryOp.negation? p.rest) :
      Asks ⟨rule .condition, p⟩ ⟨rule (.repetition .comparison), p⟩
  | sign {p token s op ls} (hsign : UnaryOp.sign? token = some op) (hrest : p.rest = ⟨token, s⟩ :: ls) :
      Asks ⟨rule .factor, p⟩ ⟨nested .factor, p.upTo ls⟩
  | unsigned {p} (hsign : NoneNext UnaryOp.sign? p.rest) : Asks ⟨rule .factor, p⟩ ⟨rule .power, p⟩
  | base {p} : Asks ⟨rule .power, p⟩ ⟨rule .atom, p⟩
  | exponent {p base p₁ s ls} (hbase : Reads (rule .atom) p (.ok base) p₁) (hcaret : p₁.rest = ⟨.caret, s⟩ :: ls) :
      Asks ⟨rule .power, p⟩ ⟨nested .factor, p₁.upTo ls⟩
  | inner {p s ls} (hrest : p.rest = ⟨.leftParen, s⟩ :: ls) :
      Asks ⟨rule .atom, p⟩ ⟨nested .expression, p.upTo ls⟩
  | operand {l p} : Asks ⟨rule (.repetition l), p⟩ ⟨rule l.operand, p⟩
  | fold {l p left p₁} (hoperand : Reads (rule l.operand) p (.ok left) p₁) :
      Asks ⟨rule (.repetition l), p⟩ ⟨.fold l left, p₁⟩
  | right {l left p token op s ls} (hoperator : l.operator? token = some op) (hrest : p.rest = ⟨token, s⟩ :: ls)
      (hdepth : p.depth < p.limit) : Asks ⟨.fold l left, p⟩ ⟨rule l.operand, (p.upTo ls).enter⟩
  | more {l left p token op s ls right p₁} (hoperator : l.operator? token = some op)
      (hrest : p.rest = ⟨token, s⟩ :: ls) (hdepth : p.depth < p.limit)
      (hoperand : Reads (rule l.operand) (p.upTo ls).enter (.ok right) p₁) :
      Asks ⟨.fold l left, p⟩ ⟨.fold l (.binary left ⟨op, s⟩ right), p₁⟩

/-- The call itself finds that no level is left, and refuses where the parser stands then. -/
inductive Stops : Call → Parser → Prop
  | nested {r p} (hdepth : p.limit ≤ p.depth) : Stops ⟨nested r, p⟩ p
  | fold {l left p token op s ls} (hoperator : l.operator? token = some op) (hrest : p.rest = ⟨token, s⟩ :: ls)
      (hdepth : p.limit ≤ p.depth) : Stops ⟨.fold l left, p⟩ (p.upTo ls)

/-- Some call that is made in answering this one stops at the limit. -/
def FailsAt (c : Call) (q : Parser) : Prop := ∃ c', Relation.ReflTransGen Asks c c' ∧ c'.Stops q

/-- The call is answered by the refusal to go deeper at `q`. -/
def RefusesAt (c : Call) (q : Parser) : Prop := ∃ q', Reads c.phrase c.parser q.tooDeep q' ∧ q'.rest = q.rest

/-- The result is the refusal of a call that stops at the limit. -/
def FailsWith (c : Call) (result : Except SyntaxError Expr) : Prop := ∃ q, c.FailsAt q ∧ result = q.tooDeep

variable {c c' : Call} {q : Parser} {result : Except SyntaxError Expr}

theorem Stops.failsAt (h : c.Stops q) : c.FailsAt q := ⟨c, .refl, h⟩

theorem Asks.failsAt (h : c.Asks c') (hfails : c'.FailsAt q) : c.FailsAt q := by
  obtain ⟨last, hcalls, hstops⟩ := hfails
  exact ⟨last, .head h hcalls, hstops⟩

theorem Stops.failsWith (h : c.Stops q) : c.FailsWith q.tooDeep := ⟨q, h.failsAt, rfl⟩

theorem Asks.failsWith (h : c.Asks c') (hfails : c'.FailsWith result) : c.FailsWith result := by
  obtain ⟨q, hfails, hresult⟩ := hfails
  exact ⟨q, h.failsAt hfails, hresult⟩

theorem FailsWith.map {f : Expr → Expr} (h : c.FailsWith result) : c.FailsWith (result.map f) := by
  obtain ⟨q, hfails, rfl⟩ := h
  exact ⟨q, hfails, rfl⟩

/-! ### A stop is not hidden -/

theorem Stops.refusesAt (h : c.Stops q) : c.RefusesAt q := by
  cases h with
  | nested hdepth => exact ⟨_, .tooDeep hdepth, rfl⟩
  | fold hoperator hrest hdepth => exact ⟨_, .foldTooDeep hoperator hrest hdepth, rfl⟩

theorem Asks.refusesAt (h : c.Asks c') (hrefuses : c'.RefusesAt q) : c.RefusesAt q := by
  obtain ⟨q', hrun, hplace⟩ := hrefuses
  cases h with
  | deeper hdepth => exact ⟨_, .deeper hdepth hrun, hplace⟩
  | assign hrest => exact ⟨_, .assign hrest hrun, hplace⟩
  | logic hvar =>
      have hall := Reads.logic hvar hrun
      rw [hrun.orExpected_of_isTooDeep ⟨_, _, rfl⟩] at hall
      exact ⟨_, hall, hplace⟩
  | negation hrest => exact ⟨_, .negation hrest hrun, hplace⟩
  | comparison hnot =>
      have hall := Reads.comparison hnot hrun
      rw [hrun.orExpected_of_isTooDeep ⟨_, _, rfl⟩] at hall
      exact ⟨_, hall, hplace⟩
  | sign hsign hrest => exact ⟨_, .sign hsign hrest hrun, hplace⟩
  | unsigned hsign => exact ⟨_, .unsigned hsign hrun, hplace⟩
  | base => exact ⟨_, .noBase hrun, hplace⟩
  | exponent hbase hcaret => exact ⟨_, .power hbase hcaret hrun, hplace⟩
  | inner hrest => exact ⟨_, .noInner hrest hrun, hplace⟩
  | operand => exact ⟨_, .noOperand hrun, hplace⟩
  | fold hoperand => exact ⟨_, .repetition hoperand hrun, hplace⟩
  | right hoperator hrest hdepth => exact ⟨_, .foldNoOperand hoperator hrest hdepth hrun, hplace⟩
  | more hoperator hrest hdepth hoperand => exact ⟨_, .foldStep hoperator hrest hdepth hoperand hrun, hplace⟩

theorem FailsAt.refusesAt (h : c.FailsAt q) : c.RefusesAt q := by
  obtain ⟨last, hcalls, hstops⟩ := h
  induction hcalls using Relation.ReflTransGen.head_induction_on with
  | refl => exact hstops.refusesAt
  | head hask _ ih => exact hask.refusesAt ih

end Call

/-- Nothing but a stop at the limit brings about its refusal. -/
theorem Phrase.Reads.failsWith {phrase : Phrase} {p q : Parser} {result : Except SyntaxError Expr}
    (h : Reads phrase p result q) (hdeep : IsTooDeep result) : Call.FailsWith ⟨phrase, p⟩ result := by
  induction h with
  | tooDeep hdepth => exact (Call.Stops.nested hdepth).failsWith
  | foldTooDeep hoperator hrest hdepth => exact (Call.Stops.fold hoperator hrest hdepth).failsWith
  | noName | noEqual | unclosed | noAtom => exact absurd hdeep (not_isTooDeep_expected _ _)
  | base | number | name | parens | foldEnd => exact absurd hdeep (not_isTooDeep_ok _)
  | deeper hdepth _ ih => exact (Call.Asks.deeper hdepth).failsWith (ih hdeep)
  | assign hrest _ ih => exact (Call.Asks.assign hrest).failsWith (ih (isTooDeep_map.mp hdeep)).map
  | logic hvar hlogic ih =>
      have hinner := isTooDeep_of_orExpected hdeep
      rw [hlogic.orExpected_of_isTooDeep hinner]
      exact (Call.Asks.logic hvar).failsWith (ih hinner)
  | negation hrest _ ih => exact (Call.Asks.negation hrest).failsWith (ih (isTooDeep_map.mp hdeep)).map
  | comparison hnot hcomparison ih =>
      have hinner := isTooDeep_of_orExpected hdeep
      rw [hcomparison.orExpected_of_isTooDeep hinner]
      exact (Call.Asks.comparison hnot).failsWith (ih hinner)
  | sign hsign hrest _ ih => exact (Call.Asks.sign hsign hrest).failsWith (ih (isTooDeep_map.mp hdeep)).map
  | unsigned hsign _ ih => exact (Call.Asks.unsigned hsign).failsWith (ih hdeep)
  | noBase _ ih => exact Call.Asks.base.failsWith (ih hdeep)
  | power hbase hcaret _ _ ih =>
      exact (Call.Asks.exponent hbase hcaret).failsWith (ih (isTooDeep_map.mp hdeep)).map
  | noInner hrest _ ih => exact (Call.Asks.inner hrest).failsWith (ih hdeep)
  | noOperand _ ih => exact Call.Asks.operand.failsWith (ih hdeep)
  | repetition hoperand _ _ ih => exact (Call.Asks.fold hoperand).failsWith (ih hdeep)
  | foldNoOperand hoperator hrest hdepth _ ih =>
      exact (Call.Asks.right hoperator hrest hdepth).failsWith (ih hdeep)
  | foldStep hoperator hrest hdepth hoperand _ _ ih =>
      exact (Call.Asks.more hoperator hrest hdepth hoperand).failsWith (ih hdeep)

/-! ### How deep a call can come -/

namespace Call

variable {c c' : Call} {q : Parser}

/-- The depth that is reached if every lexeme left takes a level. -/
def deepest (c : Call) : Nat :=
  match c.phrase with
  | .nested _ => c.parser.depth + c.parser.rest.length + 1
  | _ => c.parser.depth + c.parser.rest.length

theorem Asks.limit_eq (h : c.Asks c') : c'.parser.limit = c.parser.limit := by
  cases h with
  | exponent hbase _ => exact hbase.limit_eq
  | fold hoperand | more _ _ _ hoperand => exact hoperand.limit_eq
  | _ => rfl

/-- One level deeper, there is at least one lexeme less to read. -/
theorem Asks.deepest_le (h : c.Asks c') : c'.deepest ≤ c.deepest := by
  cases h with
  | @exponent p base p₁ s ls hbase hcaret =>
      have hle := hbase.length_le
      have hdepth : p₁.depth = p.depth := hbase.depth_eq
      rw [hcaret, List.length_cons] at hle
      show p₁.depth + ls.length + 1 ≤ p.depth + p.rest.length
      omega
  | @fold l p left p₁ hoperand =>
      have hle := hoperand.length_le
      have hdepth : p₁.depth = p.depth := hoperand.depth_eq
      show p₁.depth + p₁.rest.length ≤ p.depth + p.rest.length
      omega
  | @more l left p token op s ls right p₁ hoperator hrest hlevel hoperand =>
      have hle : p₁.rest.length ≤ ls.length := hoperand.length_le
      have hdepth : p₁.depth = p.depth + 1 := hoperand.depth_eq
      show p₁.depth + p₁.rest.length ≤ p.depth + p.rest.length
      rw [hrest, List.length_cons]
      omega
  | _ => simp [deepest, *] <;> omega

theorem Stops.lt_deepest (h : c.Stops q) : c.parser.limit + q.rest.length < c.deepest := by
  cases h with
  | nested hdepth =>
      show q.limit + q.rest.length < q.depth + q.rest.length + 1
      omega
  | @fold l left p token op s ls hoperator hrest hdepth =>
      show p.limit + ls.length < p.depth + p.rest.length
      rw [hrest, List.length_cons]
      omega

theorem FailsAt.lt_deepest (h : c.FailsAt q) : c.parser.limit + q.rest.length < c.deepest := by
  obtain ⟨last, hcalls, hstops⟩ := h
  induction hcalls using Relation.ReflTransGen.head_induction_on with
  | refl => exact hstops.lt_deepest
  | head hask _ ih =>
      rw [← hask.limit_eq]
      exact Nat.lt_of_lt_of_le ih hask.deepest_le

theorem FailsAt.limit_eq (h : c.FailsAt q) : q.limit = c.parser.limit := by
  obtain ⟨last, hcalls, hstops⟩ := h
  induction hcalls using Relation.ReflTransGen.head_induction_on with
  | refl => cases hstops <;> rfl
  | head hask _ ih => exact ih.trans hask.limit_eq

end Call

/-! ### The limit and the whole list -/

/-- The message that the limit is exceeded is never one about what was expected. -/
theorem SyntaxError.Cause.message_ne_tooDeep (classes : List TokenClass) (limit : Nat) :
    (expected classes).message ≠ (tooDeep limit).message := by
  intro h
  have hhead : ("Expected " ++ TokenClass.enumerate classes).toList.head? =
      ("Maximum nesting depth of " ++ toString limit ++ " exceeded").toList.head? :=
    congrArg (fun s : String => s.toList.head?) h
  simp [String.toList_append] at hhead

namespace Parser

variable {lexemes : List Lexeme} {limit : Nat} {result : Except SyntaxError Expr} {p q : Parser}

/-- The whole list is refused with the message that the limit is exceeded. -/
def Exceeds (p : Parser) : Prop :=
  ∃ e, p.whole.1 = .error e ∧ e.cause.message = (SyntaxError.Cause.tooDeep p.limit).message

/-- The first call of a reading. -/
def call (p : Parser) : Call := ⟨nested .expression, p⟩

theorem whole_of_failsAt (h : p.call.FailsAt q) : p.whole.1 = q.tooDeep := by
  obtain ⟨q', hrun, _⟩ := h.refusesAt
  have hread := expression_eq_iff.mpr hrun
  exact congrArg Prod.fst (whole_of_error hread)

theorem exceeds_iff : p.Exceeds ↔ ∃ q, p.call.FailsAt q := by
  constructor
  · rintro ⟨e, he, hmessage⟩
    rcases whole_eq_error_iff.mp (Prod.ext he rfl) with hread | ⟨_, _, _, rfl⟩
    · obtain ⟨cause, span⟩ := e
      cases cause with
      | expected classes => exact absurd hmessage (SyntaxError.Cause.message_ne_tooDeep classes _)
      | tooDeep n =>
          obtain ⟨q, hfails, _⟩ := (expression_eq_iff.mp hread).failsWith ⟨n, span, rfl⟩
          exact ⟨q, hfails⟩
    · exact absurd hmessage (SyntaxError.Cause.message_ne_tooDeep _ _)
  · rintro ⟨q, hfails⟩
    have hlimit : q.limit = p.limit := hfails.limit_eq
    exact ⟨_, whole_of_failsAt hfails, by rw [hlimit]⟩

theorem not_isTooDeep_of_not_exceeds (h : ¬p.Exceeds) (hread : p.expression = (result, q)) : ¬IsTooDeep result := by
  intro hdeep
  obtain ⟨q', hfails, _⟩ := (expression_eq_iff.mp hread).failsWith hdeep
  exact h (exceeds_iff.mpr ⟨q', hfails⟩)

/-- A higher limit is of no account to a reading that has not been stopped by the lower one. -/
theorem expression_of_limit_le {more : Nat} (hmore : limit ≤ more)
    (hread : (ofLexemes lexemes limit).expression = (result, q)) (hdeep : ¬IsTooDeep result) :
    ∃ q', (ofLexemes lexemes more).expression = (result, q') ∧ q'.rest = q.rest ∧ q'.here = q.here := by
  have hrun := expression_eq_iff.mp hread
  obtain ⟨ls, hls⟩ := hrun.suffix
  obtain ⟨q', hrest, hrun'⟩ := hrun.transfers hdeep (ofLexemes lexemes more) hls.symm hls.symm rfl
    (by simpa using hmore)
  have hstop : q'.stop = q.stop := hrun'.stop_eq.trans hrun.stop_eq.symm
  have hhere : q'.here = q.here := by rw [here_eq, here_eq, hrest, hstop]
  have hresult : q'.relocate result = result := by
    cases result with
    | ok e => rfl
    | error e =>
        show Except.error (SyntaxError.mk e.cause q'.here) = Except.error e
        rw [hhere, ← hrun.located rfl]
  rw [hresult] at hrun'
  exact ⟨q', expression_eq_iff.mpr hrun', hrest, hhere⟩

theorem whole_of_limit_le {more : Nat} (hmore : limit ≤ more) (h : ¬(ofLexemes lexemes limit).Exceeds) :
    (ofLexemes lexemes more).whole.1 = (ofLexemes lexemes limit).whole.1 ∧
      (ofLexemes lexemes more).whole.2.rest = (ofLexemes lexemes limit).whole.2.rest := by
  rcases hread : (ofLexemes lexemes limit).expression with ⟨result, q⟩
  obtain ⟨q', hread', hrest, hhere⟩ := expression_of_limit_le hmore hread (not_isTooDeep_of_not_exceeds h hread)
  cases result with
  | error e =>
      rw [whole_of_error hread, whole_of_error hread']
      exact ⟨rfl, hrest⟩
  | ok e =>
      have hend : q'.atEnd = q.atEnd := by rw [atEnd, atEnd, hrest]
      rw [whole_of_ok hread, whole_of_ok hread', hend, refusal, refusal, hhere]
      exact ⟨rfl, hrest⟩

/-- What is read up to a stop at the limit has at least as many lexemes as there are levels. -/
theorem limit_le_of_failsAt (h : (ofLexemes lexemes limit).call.FailsAt q) : limit ≤ (beforeEnd lexemes).length := by
  obtain ⟨q', hrun, hplace⟩ := h.refusesAt
  have hwhole := whole_of_error (expression_eq_iff.mpr hrun)
  -- what has been read begins a sentence, so there is no end token in it
  obtain ⟨ls, hls, ms, e, hderives⟩ := viable_of_whole hwhole
  have hread : beforeEnd lexemes = ls ++ beforeEnd q'.rest := by
    rw [hls]
    exact beforeEnd_append (fun l hl => hderives.value_ne_eof l (List.mem_append_left ms hl)) _
  have hdeepest : limit + q.rest.length < 0 + lexemes.length + 1 := h.lt_deepest
  rw [hls, hplace, List.length_append] at hdeepest
  rw [hread, List.length_append]
  omega

end Parser

/-- The limit is of no account until it is exceeded, and cannot be overlooked then. A list of lexemes that a
limit is enough for is read alike with every higher limit: the result is the same, and so is what is left. If
any call of a reading stops at the limit, the list is refused with that stop, and nothing else refuses it with
the message of the limit. A limit greater than the number of lexemes before the end is never exceeded. -/
theorem nesting_limit (lexemes : List Lexeme) (limit : Nat) :
    (¬(Parser.ofLexemes lexemes limit).Exceeds → ∀ more, limit ≤ more →
      (Parser.ofLexemes lexemes more).whole.1 = (Parser.ofLexemes lexemes limit).whole.1 ∧
        (Parser.ofLexemes lexemes more).whole.2.rest = (Parser.ofLexemes lexemes limit).whole.2.rest) ∧
    (∀ q, (Parser.ofLexemes lexemes limit).call.FailsAt q →
      (Parser.ofLexemes lexemes limit).whole.1 = .error ⟨.tooDeep limit, q.here⟩) ∧
    ((Parser.ofLexemes lexemes limit).Exceeds → ∃ q, (Parser.ofLexemes lexemes limit).call.FailsAt q) ∧
    ((beforeEnd lexemes).length < limit → ¬(Parser.ofLexemes lexemes limit).Exceeds) := by
  refine ⟨?_, ?_, Parser.exceeds_iff.mp, ?_⟩
  · intro h more hmore
    exact Parser.whole_of_limit_le hmore h
  · intro q hfails
    have hlimit : q.limit = limit := hfails.limit_eq
    rw [Parser.whole_of_failsAt hfails, Parser.tooDeep, Parser.refusal, hlimit]
  · intro hlength hexceeds
    obtain ⟨q, hfails⟩ := Parser.exceeds_iff.mp hexceeds
    exact absurd (Parser.limit_le_of_failsAt hfails) (Nat.not_le.mpr hlength)

theorem nesting_limit_paren :
    let lexemes : List Lexeme := [⟨.leftParen, {}⟩, ⟨.number (.int 1), ⟨⟨1, 0, 1⟩, ⟨2, 0, 2⟩⟩⟩, ⟨.rightParen, {}⟩]
    (Parser.ofLexemes lexemes 1).whole.1 = .error ⟨.tooDeep 1, ⟨⟨1, 0, 1⟩, ⟨2, 0, 2⟩⟩⟩ ∧
      ¬(Parser.ofLexemes lexemes 4).Exceeds ∧
      (Parser.ofLexemes lexemes 1000).whole.1 = (Parser.ofLexemes lexemes 4).whole.1 := by
  intro lexemes
  have hnone {α : Type} {f : Token → Option α} (hf : f .leftParen = none) : NoneNext f lexemes := by
    rintro _ ⟨⟩
    exact hf
  have hfails : (Parser.ofLexemes lexemes 1).call.FailsAt _ :=
    (Call.Asks.deeper (by decide)).failsAt <| (Call.Asks.logic (hnone rfl)).failsAt <|
      Call.Asks.operand.failsAt <| (Call.Asks.comparison (hnone rfl)).failsAt <|
      Call.Asks.operand.failsAt <| Call.Asks.operand.failsAt <| Call.Asks.operand.failsAt <|
      (Call.Asks.unsigned (hnone rfl)).failsAt <| Call.Asks.base.failsAt <|
      (Call.Asks.inner rfl).failsAt (Call.Stops.nested (by decide)).failsAt
  have henough := (nesting_limit lexemes 4).2.2.2 (by decide)
  exact ⟨(nesting_limit lexemes 1).2.1 _ hfails, henough, ((nesting_limit lexemes 4).1 henough 1000 (by decide)).1⟩

end LineCalc
