import LineCalc.Proofs.GrammarDerivation
import LineCalc.Proofs.ReadingRun

/-!
The reader accepts exactly the grammar. What a rule reads spells the expression it returns, and the rule stops
only where no operator could continue it (`Reads.derives`). Conversely a rule reads the whole of a derivation
that is followed by no such operator, if the depth allows it (`Rule.Derives.completes`). A derivation of a
repetition groups to the left and the reader goes to the right, so the converse is proved for the reader in
the middle of a repetition: having come to the expression of the derivation, it goes on from there.
-/

namespace LineCalc

namespace Lexeme

variable {ls : List Lexeme} {l : Level}

theorem stopsBelow_zero_iff : StopsBelow 0 ls ↔ NoOperatorNext ls := by
  simp [StopsBelow, NoOperatorNext]

theorem noOperatorNext_rightParen (s : Span) (ls : List Lexeme) :
    NoOperatorNext (⟨.rightParen, s⟩ :: ls) := by
  intro l hl op htoken
  cases hl
  cases op <;> cases htoken

theorem stopsBelow_atom (ls : List Lexeme) : StopsBelow Rule.atom.strength ls := by
  intro _ _ op _
  cases op <;> decide

theorem StopsBelow.mono {strength strength' : Nat} (h : StopsBelow strength ls) (hle : strength ≤ strength') :
    StopsBelow strength' ls := by
  intro t ht op htoken
  exact Nat.lt_of_lt_of_le (h t ht op htoken) hle

theorem StopsBelow.noneNext (h : StopsBelow l.strength ls) : NoneNext l.operator? ls := by
  intro t ht
  cases hop : l.operator? t.value with
  | none => rfl
  | some op =>
      obtain ⟨hmem, htoken⟩ := Level.operator?_eq_some_iff.mp hop
      have hlt := h t ht op htoken
      rw [Level.mem_operators_iff.mp hmem] at hlt
      exact absurd hlt (Nat.lt_irrefl _)

theorem StopsBelow.of_noneNext (h : StopsBelow l.operand.strength ls) (hnone : NoneNext l.operator? ls) :
    StopsBelow l.strength ls := by
  intro t ht op htoken
  have hlt := h t ht op htoken
  have hne : op.strength ≠ l.strength := by
    intro heq
    have hop := Level.operator?_eq_some_iff.mpr ⟨Level.mem_operators_iff.mpr heq, htoken⟩
    rw [hnone t ht] at hop
    contradiction
  rw [Rule.strength_operand] at hlt
  omega

theorem StopsBelow.noneNext_power (h : StopsBelow Rule.power.strength ls) : NoneNext BinaryOp.power? ls := by
  intro t ht
  cases hop : BinaryOp.power? t.value with
  | none => rfl
  | some op =>
      obtain ⟨htoken, rfl⟩ := BinaryOp.power?_eq_some_iff.mp hop
      exact absurd (h t ht .pow htoken) (by decide)

theorem StopsBelow.of_noneNext_power (hnone : NoneNext BinaryOp.power? ls) :
    StopsBelow Rule.power.strength ls := by
  intro t ht op htoken
  cases op with
  | pow =>
      have hop := BinaryOp.power?_eq_some_iff.mpr ⟨htoken, rfl⟩
      rw [hnone t ht] at hop
      contradiction
  | _ => decide

end Lexeme

namespace Phrase

open Lexeme

variable {phrase : Phrase} {p q : Parser} {result : Except SyntaxError Expr} {e : Expr}

theorem Reads.derives : Reads phrase p result q → result = .ok e →
    match phrase with
    | rule r | nested r => ∃ ls, p.rest = ls ++ q.rest ∧ r.Derives ls e ∧ StopsBelow r.strength q.rest
    | fold l left => ∀ ls, (Rule.repetition l).Derives ls left → StopsBelow l.operand.strength p.rest →
        ∃ ms, p.rest = ms ++ q.rest ∧ (Rule.repetition l).Derives (ls ++ ms) e ∧ StopsBelow l.strength q.rest := by
  intro h he
  induction h generalizing e with
  | tooDeep | noName | noEqual | noBase | unclosed | noInner | noAtom | noOperand => cases he
  | foldTooDeep | foldNoOperand => cases he
  | deeper _ _ ih => exact ih he
  | @assign _ s t ls result _ x hrest _ ih =>
      obtain ⟨value, rfl, rfl⟩ := ok_of_map he
      obtain ⟨ms, hms, hvalue, hstop⟩ := ih rfl
      rw [Parser.upTo_rest] at hms
      exact ⟨_, by rw [hrest, hms]; rfl, .assign hvalue, hstop⟩
  | logic _ _ ih =>
      obtain ⟨ls, hls, hlogic, hstop⟩ := ih (Parser.ok_of_orExpected he)
      exact ⟨ls, hls, .logic hlogic, hstop⟩
  | negation hrest _ ih =>
      obtain ⟨operand, rfl, rfl⟩ := ok_of_map he
      obtain ⟨ms, hms, hoperand, hstop⟩ := ih rfl
      rw [Parser.upTo_rest] at hms
      exact ⟨_, by rw [hrest, hms]; rfl, .negation hoperand, hstop⟩
  | comparison _ _ ih =>
      obtain ⟨ls, hls, hcomparison, hstop⟩ := ih (Parser.ok_of_orExpected he)
      exact ⟨ls, hls, .comparison hcomparison, hstop⟩
  | sign hsign hrest _ ih =>
      obtain ⟨operand, rfl, rfl⟩ := ok_of_map he
      obtain ⟨ms, hms, hoperand, hstop⟩ := ih rfl
      obtain ⟨hmem, rfl⟩ := UnaryOp.sign?_eq_some_iff.mp hsign
      rw [Parser.upTo_rest] at hms
      exact ⟨_, by rw [hrest, hms]; rfl, .sign hmem hoperand, hstop⟩
  | unsigned _ _ ih =>
      obtain ⟨ls, hls, hpower, hstop⟩ := ih he
      exact ⟨ls, hls, .unsigned hpower, hstop⟩
  | base _ hcaret ih =>
      obtain ⟨ls, hls, hbase, _⟩ := ih he
      exact ⟨ls, hls, .base hbase, .of_noneNext_power hcaret⟩
  | power _ hcaret _ ihbase ih =>
      obtain ⟨exponent, rfl, rfl⟩ := ok_of_map he
      obtain ⟨ls, hls, hbase, _⟩ := ihbase rfl
      obtain ⟨ms, hms, hexponent, hstop⟩ := ih rfl
      rw [Parser.upTo_rest] at hms
      refine ⟨_, ?_, .power hbase hexponent, hstop⟩
      rw [hls, hcaret, hms, List.append_assoc]
      rfl
  | number hrest =>
      cases he
      exact ⟨_, hrest, .number, stopsBelow_atom _⟩
  | name hrest =>
      cases he
      exact ⟨_, hrest, .name, stopsBelow_atom _⟩
  | @parens _ s _ _ _ t _ hrest _ hclose ih =>
      obtain ⟨ls, hls, hinner, _⟩ := ih he
      rw [Parser.upTo_rest] at hls
      refine ⟨_, ?_, .parens (s := s) (t := t) hinner, stopsBelow_atom _⟩
      rw [hrest, hls, hclose, Parser.upTo_rest, List.cons_append, List.append_assoc]
      rfl
  | repetition _ _ ihoperand ih =>
      obtain ⟨ls, hls, hoperand, hstop⟩ := ihoperand rfl
      obtain ⟨ms, hms, hfold, hend⟩ := ih he ls (.operand hoperand) hstop
      exact ⟨ls ++ ms, by rw [hls, hms, List.append_assoc], hfold, hend⟩
  | foldEnd hoperator =>
      cases he
      intro ls hleft hstop
      exact ⟨[], rfl, by rwa [List.append_nil], hstop.of_noneNext hoperator⟩
  | foldStep hoperator hrest _ _ _ ihoperand ih =>
      intro ls hleft _
      obtain ⟨hmem, rfl⟩ := Level.operator?_eq_some_iff.mp hoperator
      obtain ⟨ms, hms, hoperand, hstop⟩ := ihoperand rfl
      obtain ⟨ns, hns, hfold, hend⟩ := ih he _ (.operation hmem hleft hoperand) hstop
      rw [Parser.enter_rest, Parser.upTo_rest] at hms
      refine ⟨_, by rw [hrest, hms, hns]; exact (List.append_assoc (_ :: ms) ns _).symm, ?_, hend⟩
      rwa [List.append_assoc] at hfold

end Phrase

/-! ### Every derivation is read -/

open Lexeme Phrase

/-- The rule reads all of `ls` as `e` wherever they stand, if no operator behind them continues it and the
depth allows it. -/
def Rule.ReadsAll (r : Rule) (ls : List Lexeme) (e : Expr) : Prop :=
  ∀ p rest, p.rest = ls ++ rest → StopsBelow r.strength rest → p.depth + ls.length ≤ p.limit + 1 →
    Reads (rule r) p (.ok e) (p.upTo rest)

/-- The repetition comes to `e` when it has read `ls`, some steps deeper, and whatever it makes of what
follows is what it makes of the whole. -/
def Level.ReadsTo (l : Level) (ls : List Lexeme) (e : Expr) : Prop :=
  ∀ p rest, p.rest = ls ++ rest → StopsBelow l.operand.strength rest → p.depth + ls.length ≤ p.limit + 1 →
    ∃ first p₁ steps, steps < ls.length ∧ p₁.depth = p.depth ∧ Reads (rule l.operand) p (.ok first) p₁ ∧
      ∀ result q, Reads (fold l e) { p.upTo rest with depth := p.depth + steps } result q →
        Reads (fold l first) p₁ result q

theorem Level.ReadsTo.readsAll {l : Level} {ls : List Lexeme} {e : Expr} (h : l.ReadsTo ls e) :
    (Rule.repetition l).ReadsAll ls e := by
  intro p rest hrest hstop hdepth
  have htighter : StopsBelow l.operand.strength rest := hstop.mono (by rw [Rule.strength_operand]; exact Nat.le_succ _)
  obtain ⟨first, p₁, steps, _, hp₁, hfirst, hgo⟩ := h p rest hrest htighter hdepth
  have hrun := Reads.repetition hfirst (hgo _ _ (.foldEnd hstop.noneNext))
  rwa [hp₁] at hrun

/-- What the induction over derivations carries. -/
def Rule.Completes (r : Rule) (ls : List Lexeme) (e : Expr) : Prop :=
  match r with
  | repetition l => l.ReadsTo ls e
  | r => r.ReadsAll ls e

namespace Rule

variable {r : Rule} {ls : List Lexeme} {e : Expr}

theorem Completes.readsAll (h : r.Completes ls e) : r.ReadsAll ls e := by
  cases r with
  | repetition l => exact Level.ReadsTo.readsAll h
  | _ => exact h

theorem ReadsAll.nested {p : Parser} {rest : List Lexeme} (h : r.ReadsAll ls e) (hpos : 0 < ls.length)
    (hstop : StopsBelow r.strength rest) (hdepth : p.depth + ls.length ≤ p.limit) :
    Reads (nested r) (p.upTo (ls ++ rest)) (.ok e) (p.upTo rest) := by
  have hbody := h (p.upTo (ls ++ rest)).enter rest rfl hstop
  simp only [Parser.enter_depth, Parser.enter_limit, Parser.upTo_depth, Parser.upTo_limit] at hbody
  exact .deeper (p := p.upTo (ls ++ rest)) (show p.depth < p.limit by omega) (hbody (by omega))

theorem Derives.noneNext {f : Token → Option α} (h : r.Derives ls e) (hf : ∀ t, r.startsWith t → f t = none)
    (rest : List Lexeme) : NoneNext f (ls ++ rest) := by
  obtain ⟨l, ms, rfl, hl⟩ := h.first
  intro t ht
  cases ht
  exact hf l.value hl

theorem is?_var_of_startsWith (t : Token) (h : (repetition .logic).startsWith t) :
    Token.is? (.keyword .var) t = none := by
  cases t with
  | keyword k => cases k <;> first | rfl | cases h
  | _ => rfl

theorem negation?_of_startsWith (t : Token) (h : (repetition .comparison).startsWith t) :
    UnaryOp.negation? t = none := by
  cases t with
  | keyword k => cases k <;> first | rfl | cases h
  | _ => rfl

theorem sign?_of_startsWith (t : Token) (h : power.startsWith t) : UnaryOp.sign? t = none := by
  cases t with
  | plus | minus => cases h
  | _ => rfl

theorem Derives.completes (h : r.Derives ls e) : r.Completes ls e := by
  induction h with
  | assign hvalue ih =>
      intro p rest hrest hstop hdepth
      simp only [List.length_cons] at hdepth
      have hrun := ReadsAll.nested (p := p) ih hvalue.length_pos hstop (by omega)
      exact Reads.assign hrest hrun
  | logic hlogic ih =>
      intro p rest hrest hstop hdepth
      have hvar := hlogic.noneNext is?_var_of_startsWith rest
      rw [← hrest] at hvar
      exact Reads.logic hvar (Completes.readsAll ih p rest hrest hstop hdepth)
  | negation hoperand ih =>
      intro p rest hrest hstop hdepth
      rw [List.length_cons] at hdepth
      have hrun := ReadsAll.nested (p := p) ih hoperand.length_pos hstop (by omega)
      exact Reads.negation hrest hrun
  | comparison hcomparison ih =>
      intro p rest hrest hstop hdepth
      have hnot := hcomparison.noneNext negation?_of_startsWith rest
      rw [← hrest] at hnot
      exact Reads.comparison hnot (Completes.readsAll ih p rest hrest hstop hdepth)
  | sign hsign hoperand ih =>
      intro p rest hrest hstop hdepth
      rw [List.length_cons] at hdepth
      have hrun := ReadsAll.nested (p := p) ih hoperand.length_pos hstop (by omega)
      exact Reads.sign (UnaryOp.sign?_eq_some_iff.mpr ⟨hsign, rfl⟩) hrest hrun
  | unsigned hpower ih =>
      intro p rest hrest hstop hdepth
      have hsign := hpower.noneNext sign?_of_startsWith rest
      rw [← hrest] at hsign
      exact Reads.unsigned hsign (ih p rest hrest hstop hdepth)
  | base _ ih =>
      intro p rest hrest hstop hdepth
      exact Reads.base (ih p rest hrest (stopsBelow_atom rest) hdepth) hstop.noneNext_power
  | @power ls base s ms exponent hbase hexponent ihbase ih =>
      intro p rest hrest hstop hdepth
      rw [List.length_append, List.length_cons] at hdepth
      rw [List.append_assoc] at hrest
      have hrun := ihbase p (⟨.caret, s⟩ :: ms ++ rest) hrest (stopsBelow_atom _) (by omega)
      exact Reads.power hrun rfl (ReadsAll.nested (p := p) ih hexponent.length_pos hstop (by omega))
  | number =>
      intro p rest hrest _ _
      exact Reads.number hrest
  | name =>
      intro p rest hrest _ _
      exact Reads.name hrest
  | @parens s ls e t hinner ih =>
      intro p rest hrest _ hdepth
      simp only [List.length_cons, List.length_append] at hdepth
      rw [List.cons_append, List.append_assoc] at hrest
      have hstop := noOperatorNext_rightParen t rest
      have hrun := ReadsAll.nested (p := p) ih hinner.length_pos (stopsBelow_zero_iff.mpr hstop) (by omega)
      have hall := Reads.parens hrest hrun rfl
      exact hall
  | @operand l ls e hoperand ih =>
      intro p rest hrest hstop hdepth
      refine ⟨e, p.upTo rest, 0, hoperand.length_pos, rfl, Completes.readsAll ih p rest hrest hstop hdepth, ?_⟩
      intro result q hrun
      exact hrun
  | @operation l op ls left s ms right hoperator hleft hright ihleft ihright =>
      intro p rest hrest hstop hdepth
      have hpos := hright.length_pos
      rw [List.length_append, List.length_cons] at hdepth
      rw [List.append_assoc] at hrest
      have htoken := Level.operator?_eq_some_iff.mpr ⟨hoperator, rfl⟩
      have hnext : StopsBelow l.operand.strength (⟨op.token, s⟩ :: ms ++ rest) := by
        intro t ht other hother
        cases ht
        rw [← BinaryOp.token_injective hother, Level.mem_operators_iff.mp hoperator, strength_operand]
        exact Nat.lt_succ_self _
      obtain ⟨first, p₁, steps, hsteps, hp₁, hfirst, hgo⟩ := ihleft p _ hrest hnext (by omega)
      refine ⟨first, p₁, steps + 1, ?_, hp₁, hfirst, ?_⟩
      · rw [List.length_append, List.length_cons]
        omega
      · intro result q hrun
        apply hgo
        have hright := Completes.readsAll ihright { p.upTo (ms ++ rest) with depth := p.depth + steps + 1 } rest
          rfl hstop
        refine .foldStep htoken rfl (show p.depth + steps < p.limit by omega) (hright ?_) hrun
        show p.depth + steps + 1 + ms.length ≤ p.limit + 1
        omega

end Rule

/-! ### Whole lists -/

namespace Lexeme

/-- The lexemes before the first end token. -/
def beforeEnd (ls : List Lexeme) : List Lexeme := ls.takeWhile (·.value ≠ .eof)

/-- The lexemes from the first end token on. -/
def afterEnd (ls : List Lexeme) : List Lexeme := ls.dropWhile (·.value ≠ .eof)

theorem beforeEnd_afterEnd (ls : List Lexeme) : beforeEnd (afterEnd ls) = [] := by
  induction ls with
  | nil => rfl
  | cons l ls ih =>
      by_cases hl : l.value = .eof
      · simp [afterEnd, beforeEnd, hl]
      · simpa [afterEnd, hl] using ih

theorem beforeEnd_append {ls : List Lexeme} (h : ∀ l ∈ ls, l.value ≠ .eof) (ms : List Lexeme) :
    beforeEnd (ls ++ ms) = ls ++ beforeEnd ms :=
  List.takeWhile_append_of_pos (by simpa using h)

theorem noOperatorNext_of_beforeEnd {ls : List Lexeme} (h : beforeEnd ls = []) : NoOperatorNext ls := by
  cases ls with
  | nil => simp [NoOperatorNext]
  | cons l ls =>
      intro t ht op htoken
      cases ht
      cases op <;> simp [beforeEnd, htoken, BinaryOp.token] at h

end Lexeme

namespace Parser

variable {p q : Parser} {result : Except SyntaxError Expr}

theorem atEnd_iff : p.atEnd = true ↔ beforeEnd p.rest = [] := by
  unfold atEnd
  split <;> simp_all [beforeEnd, List.takeWhile_cons]

theorem expression_eq_iff : p.expression = (result, q) ↔ Reads (nested .expression) p result q := by
  rw [reads_iff, expression, Prod.mk.injEq]

/-- What is read of an expression spells it, and no operator is left that could continue it. -/
theorem derives_of_expression {e : Expr} (h : p.expression = (.ok e, q)) :
    ∃ ls, p.rest = ls ++ q.rest ∧ Rule.expression.Derives ls e ∧ NoOperatorNext q.rest := by
  obtain ⟨ls, hls, hderives, hstop⟩ := (expression_eq_iff.mp h).derives rfl
  exact ⟨ls, hls, hderives, stopsBelow_zero_iff.mp hstop⟩

theorem expression_of_derives {ls rest : List Lexeme} {e : Expr} (hrest : p.rest = ls ++ rest)
    (h : Rule.expression.Derives ls e) (hstop : NoOperatorNext rest) (hdepth : p.depth + ls.length ≤ p.limit) :
    p.expression = (.ok e, p.upTo rest) := by
  have hrun := Rule.ReadsAll.nested h.completes h.length_pos (stopsBelow_zero_iff.mpr hstop) hdepth
  rw [← hrest] at hrun
  exact expression_eq_iff.mpr hrun

theorem whole_eq_ok_iff {e : Expr} :
    p.whole = (.ok e, q) ↔ p.expression = (.ok e, q) ∧ beforeEnd q.rest = [] := by
  rw [← atEnd_iff]
  rcases hread : p.expression with ⟨refused | e', q'⟩
  · rw [whole_of_error hread]
    simp
  · rw [whole_of_ok hread]
    by_cases hend : q'.atEnd
    · rw [if_pos hend]
      constructor
      · intro h
        cases h
        exact ⟨rfl, hend⟩
      · rintro ⟨h, _⟩
        exact h
    · rw [if_neg hend]
      constructor
      · intro h
        cases h
      · rintro ⟨h, hend'⟩
        cases h
        exact absurd hend' hend

end Parser

theorem Expr.ofLexemes?_eq_ok_iff {limit : Nat} {lexemes : List Lexeme} {e : Expr}
    (hdepth : (beforeEnd lexemes).length ≤ limit) :
    Expr.ofLexemes? limit lexemes = .ok e ↔ Rule.expression.Derives (beforeEnd lexemes) e := by
  constructor
  · intro h
    obtain ⟨hread, hend⟩ := Parser.whole_eq_ok_iff.mp (Prod.ext h rfl)
    obtain ⟨ls, hls, hderives, _⟩ := Parser.derives_of_expression hread
    rw [Parser.ofLexemes_rest] at hls
    rwa [hls, beforeEnd_append hderives.value_ne_eof, hend, List.append_nil]
  · intro h
    have hsplit : lexemes = beforeEnd lexemes ++ afterEnd lexemes := (List.takeWhile_append_dropWhile).symm
    have hend := beforeEnd_afterEnd lexemes
    have hread := Parser.expression_of_derives (p := Parser.ofLexemes lexemes limit) hsplit h
      (noOperatorNext_of_beforeEnd hend) (by rw [Parser.ofLexemes_depth, Parser.ofLexemes_limit]; omega)
    exact congrArg Prod.fst (Parser.whole_eq_ok_iff.mpr ⟨hread, hend⟩)

/-- Reading an expression accepts exactly what the grammar derives, and builds the expression it derives. What
is read spells the expression returned, up to a lexeme that is no operator. Every derivation that is followed
by no operator is read, as soon as the limit allows one level for each of its lexemes. A whole list is an
expression exactly if the lexemes before its first end token spell it. -/
theorem grammar_acceptance :
    (∀ (p q : Parser) (e : Expr), p.expression = (.ok e, q) →
      ∃ ls, p.rest = ls ++ q.rest ∧ Rule.expression.Derives ls e ∧ NoOperatorNext q.rest) ∧
    (∀ (p : Parser) (ls rest : List Lexeme) (e : Expr), p.rest = ls ++ rest → Rule.expression.Derives ls e →
      NoOperatorNext rest → p.depth + ls.length ≤ p.limit → p.expression = (.ok e, p.upTo rest)) ∧
    (∀ (lexemes : List Lexeme) (limit : Nat) (e : Expr), (beforeEnd lexemes).length ≤ limit →
      (Expr.ofLexemes? limit lexemes = .ok e ↔ Rule.expression.Derives (beforeEnd lexemes) e)) := by
  refine ⟨?_, ?_, ?_⟩
  · intro p q e h
    exact Parser.derives_of_expression h
  · intro p ls rest e hrest hderives hstop hdepth
    exact Parser.expression_of_derives hrest hderives hstop hdepth
  · intro lexemes limit e hdepth
    exact Expr.ofLexemes?_eq_ok_iff hdepth

theorem grammar_acceptance_sum :
    let ls : List Lexeme := [⟨.number (.int 1), {}⟩, ⟨.plus, {}⟩, ⟨.minus, {}⟩, ⟨.identifier "x", {}⟩]
    let e : Expr := .binary (.number ⟨.int 1, {}⟩) ⟨.add, {}⟩ (.unary ⟨.minus, {}⟩ (.name ⟨"x", {}⟩))
    let p := Parser.ofLexemes (ls ++ [⟨.rightParen, {}⟩]) 5
    p.expression = (.ok e, p.upTo [⟨.rightParen, {}⟩]) ∧
      (∃ read, p.rest = read ++ [⟨.rightParen, {}⟩] ∧ Rule.expression.Derives read e ∧
        NoOperatorNext [⟨.rightParen, {}⟩]) ∧
      Expr.ofLexemes? 4 ls = .ok e := by
  intro ls e p
  have hone : (Rule.repetition .product).Derives _ _ :=
    .operand (.unsigned (.base (.number (n := ⟨.int 1, {}⟩))))
  have hsign : UnaryOp.minus ∈ UnaryOp.signs := by decide
  have hx : (Rule.repetition .product).Derives _ _ :=
    .operand (.sign (s := {}) hsign (.unsigned (.base (.name (x := ⟨"x", {}⟩)))))
  have hsum : (Rule.repetition .sum).Derives ls e :=
    .operation (show BinaryOp.add ∈ Level.sum.operators by decide) (.operand hone) hx
  have hderives : Rule.expression.Derives ls e := .logic (.operand (.comparison (.operand hsum)))
  have hstop := noOperatorNext_rightParen {} []
  have hread := grammar_acceptance.2.1 p ls _ e rfl hderives hstop (by decide)
  exact ⟨hread, grammar_acceptance.1 p _ e hread, (grammar_acceptance.2.2 ls 4 e (by decide)).mpr hderives⟩

end LineCalc
