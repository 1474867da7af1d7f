import LineCalc.Proofs.GrammarAcceptance
import LineCalc.Proofs.ReadingLocality

/-!
Where a syntax error is reported. Whatever has been read when a rule refuses can still be continued to a
phrase of the rule (`Reads.viable`), so no error is reported too late. None is reported too early either: a
sentence that goes on with the next lexeme would be read to its end, while the refused run, which looks no
further than that lexeme, would stop there all the same.
-/

namespace LineCalc

/-- Nothing, or a token of a class that is said to be expected. -/
inductive SyntaxError.Cause.Allows : SyntaxError.Cause → List Lexeme → Prop
  | nothing {cause} : Allows cause []
  | one {classes c t s} (hclass : c ∈ classes) (htoken : c.holds t) : Allows (.expected classes) [⟨t, s⟩]

/-- The lexemes can be continued to a phrase of the rule. -/
def Rule.Viable (r : Rule) (ls : List Lexeme) : Prop := ∃ ms e, r.Derives (ls ++ ms) e

namespace Rule

variable {r : Rule} {l : Level} {ls ms : List Lexeme} {e : Expr}

/-- Every rule has a phrase. -/
theorem derives_zero (r : Rule) : r.Derives [⟨.number (.int 0), {}⟩] (.number ⟨.int 0, {}⟩) :=
  .of_atom (.number (n := ⟨.int 0, {}⟩)) r

theorem viable_nil (r : Rule) : r.Viable [] := ⟨_, _, derives_zero r⟩

theorem Derives.viable (h : r.Derives ls e) : r.Viable ls := ⟨[], e, by rwa [List.append_nil]⟩

/-- Whatever a rule can start with begins one of its phrases. -/
theorem viable_of_startsWith {t : Token} (h : r.startsWith t) (s : Span) : r.Viable [⟨t, s⟩] := by
  have hsigned (op : UnaryOp) (hsign : op ∈ UnaryOp.signs) (hpower : r ≠ .power) (hatom : r ≠ .atom) :
      r.Viable [⟨op.token, s⟩] := by
    have hfactor : factor.Derives [⟨op.token, s⟩, ⟨.number (.int 0), {}⟩] _ := .sign hsign (derives_zero factor)
    exact ⟨_, _, hfactor.of_factor r hpower hatom⟩
  cases t with
  | number n => exact (Derives.of_atom (.number (n := ⟨n, s⟩)) r).viable
  | identifier x => exact (Derives.of_atom (.name (x := ⟨x, s⟩)) r).viable
  | leftParen =>
      have hparens := Derives.parens (s := s) (t := {}) (derives_zero expression)
      exact ⟨[_, _], _, hparens.of_atom r⟩
  | plus => exact hsigned .plus (by decide) (by rintro rfl; cases h) (by rintro rfl; cases h)
  | minus => exact hsigned .minus (by decide) (by rintro rfl; cases h) (by rintro rfl; cases h)
  | keyword k =>
      cases k with
      | var =>
          cases r with
          | expression => exact ⟨_, _, .assign (s := s) (x := ⟨"", {}⟩) (t := {}) (derives_zero expression)⟩
          | repetition l => cases l <;> cases h
          | _ => cases h
      | not =>
          have hnot : condition.Derives [⟨.keyword .not, s⟩, ⟨.number (.int 0), {}⟩] _ :=
            .negation (derives_zero condition)
          cases r with
          | expression => exact ⟨_, _, .logic (.operand hnot)⟩
          | condition => exact ⟨_, _, hnot⟩
          | repetition l =>
              cases l with
              | logic => exact ⟨_, _, .operand hnot⟩
              | _ => cases h
          | _ => cases h
      | and | or => exact absurd h (by cases r with | repetition l => cases l <;> decide | _ => decide)
  | _ => exact absurd h (by cases r with | repetition l => cases l <;> decide | _ => decide)

theorem viable_of_allows {next : List Lexeme} (r : Rule)
    (h : SyntaxError.Cause.Allows (.expected r.starters) next) : r.Viable next := by
  cases h with
  | nothing => exact viable_nil r
  | one hclass htoken => exact viable_of_startsWith (List.any_eq_true.mpr ⟨_, hclass, htoken⟩) _

/-- The rule for which a rule reads. An atom, and a power, are read for a factor, so a sign may stand before them. -/
def asked : Rule → Rule
  | power | atom => factor
  | r => r

theorem asked_operand (l : Level) : l.operand.asked = l.operand := by
  cases l <;> rfl

/-- What begins a phrase can stand behind whatever such a phrase can stand behind. -/
theorem Viable.behind {r' : Rule} (h : r.Viable ls) (before : List Lexeme)
    (hstep : ∀ ms e, r.Derives ms e → ∃ e', r'.Derives (before ++ ms) e') : r'.Viable (before ++ ls) := by
  obtain ⟨ms, e, h⟩ := h
  obtain ⟨e', h'⟩ := hstep _ _ h
  rw [← List.append_assoc] at h'
  exact ⟨ms, e', h'⟩

theorem Viable.parens (h : expression.Viable ls) (s : Span) : atom.Viable (⟨.leftParen, s⟩ :: ls) := by
  obtain ⟨ms, e, h⟩ := h
  refine ⟨ms ++ [⟨.rightParen, {}⟩], e, ?_⟩
  rw [List.cons_append, ← List.append_assoc]
  exact .parens h

theorem Viable.power {base : Expr} (hbase : atom.Derives ls base) (hexponent : factor.Viable ms) (s : Span) :
    power.Viable (ls ++ ⟨.caret, s⟩ :: ms) := by
  rw [List.append_cons]
  apply hexponent.behind
  intro ns exponent hns
  rw [List.append_assoc]
  exact ⟨_, .power hbase hns⟩

theorem Viable.operation {left : Expr} {op : BinaryOp} (hoperator : op ∈ l.operators)
    (hleft : (repetition l).Derives ls left) (hright : l.operand.Viable ms) (s : Span) :
    (repetition l).Viable (ls ++ ⟨op.token, s⟩ :: ms) := by
  rw [List.append_cons]
  apply hright.behind
  intro ns right hns
  rw [List.append_assoc]
  exact ⟨_, .operation hoperator hleft hns⟩

end Rule

open Lexeme Phrase Rule

variable {phrase : Phrase} {p q : Parser} {result : Except SyntaxError Expr} {e : SyntaxError}

/-- What has been read up to a refusal begins a phrase, and it still does with a token that was expected. -/
theorem Phrase.Reads.viable {next : List Lexeme} : Reads phrase p result q → result = .error e →
    e.cause.Allows next →
    match phrase with
    | rule r | nested r => ∃ ls, p.rest = ls ++ q.rest ∧ r.asked.Viable (ls ++ next)
    | fold l left => ∀ ls, (Rule.repetition l).Derives ls left →
        ∃ ms, p.rest = ms ++ q.rest ∧ (Rule.repetition l).Viable (ls ++ (ms ++ next)) := by
  intro h he hnext
  induction h generalizing e with
  | base | number | name | parens | foldEnd => cases he
  | tooDeep =>
      cases he
      cases hnext
      exact ⟨[], rfl, viable_nil _⟩
  | noAtom =>
      cases he
      exact ⟨[], rfl, viable_of_allows factor hnext⟩
  | deeper _ _ ih => exact ih he hnext
  | @noName p s ls hrest =>
      cases he
      refine ⟨[_], hrest, ?_⟩
      cases hnext with
      | nothing => exact ⟨_, _, .assign (s := s) (x := ⟨"", {}⟩) (t := {}) (derives_zero expression)⟩
      | @one _ _ t s' hclass htoken =>
          obtain rfl := List.mem_singleton.mp hclass
          cases t with
          | identifier x => exact ⟨_, _, .assign (s := s) (x := ⟨x, s'⟩) (t := {}) (derives_zero expression)⟩
          | _ => cases htoken
  | @noEqual p s ls x hrest =>
      cases he
      refine ⟨[_, _], hrest, ?_⟩
      cases hnext with
      | nothing => exact ⟨_, _, .assign (s := s) (x := x) (t := {}) (derives_zero expression)⟩
      | one hclass htoken =>
          obtain rfl := List.mem_singleton.mp hclass
          obtain rfl := of_decide_eq_true htoken
          exact ⟨_, _, .assign (s := s) (x := x) (derives_zero expression)⟩
  | @assign p s t ls result q x hrest _ ih =>
      obtain ⟨ms, hms, hviable⟩ := ih (error_of_map he) hnext
      rw [Parser.upTo_rest] at hms
      refine ⟨_ :: _ :: _ :: ms, by rw [hrest, hms]; rfl, hviable.behind [_, _, _] ?_⟩
      exact fun _ _ hvalue => ⟨_, .assign hvalue⟩
  | @logic p result q _ hrun ih =>
      obtain ⟨inner, rfl⟩ := Parser.error_of_orExpected he
      rw [Parser.orExpected] at he
      split at he
      · next hlength =>
        cases he
        have hrest : q.rest = p.rest := hrun.suffix.eq_of_length hlength
        exact ⟨[], hrest.symm, viable_of_allows expression hnext⟩
      · cases he
        obtain ⟨ls, hls, hviable⟩ := ih rfl hnext
        exact ⟨ls, hls, hviable.behind [] (fun _ _ h => ⟨_, .logic h⟩)⟩
  | @negation p s ls result q hrest _ ih =>
      obtain ⟨ms, hms, hviable⟩ := ih (error_of_map he) hnext
      rw [Parser.upTo_rest] at hms
      refine ⟨_ :: ms, by rw [hrest, hms]; rfl, hviable.behind [_] ?_⟩
      exact fun _ _ hoperand => ⟨_, .negation hoperand⟩
  | @comparison p result q _ hrun ih =>
      obtain ⟨inner, rfl⟩ := Parser.error_of_orExpected he
      rw [Parser.orExpected] at he
      split at he
      · next hlength =>
        cases he
        have hrest : q.rest = p.rest := hrun.suffix.eq_of_length hlength
        exact ⟨[], hrest.symm, viable_of_allows condition hnext⟩
      · cases he
        obtain ⟨ls, hls, hviable⟩ := ih rfl hnext
        exact ⟨ls, hls, hviable.behind [] (fun _ _ h => ⟨_, .comparison h⟩)⟩
  | @sign p token s op ls result q hsign hrest _ ih =>
      obtain ⟨ms, hms, hviable⟩ := ih (error_of_map he) hnext
      obtain ⟨hmem, rfl⟩ := UnaryOp.sign?_eq_some_iff.mp hsign
      rw [Parser.upTo_rest] at hms
      refine ⟨_ :: ms, by rw [hrest, hms]; rfl, hviable.behind [_] ?_⟩
      exact fun _ _ hoperand => ⟨_, .sign hmem hoperand⟩
  | unsigned _ _ ih | noBase _ ih => exact ih he hnext
  | @power p base p₁ s ls result q hbase hcaret _ _ ih =>
      obtain ⟨ls, hls, hderives, _⟩ := hbase.derives rfl
      obtain ⟨ms, hms, hviable⟩ := ih (error_of_map he) hnext
      rw [Parser.upTo_rest] at hms
      refine ⟨ls ++ ⟨.caret, s⟩ :: ms, by rw [hls, hcaret, hms, List.append_assoc]; rfl, ?_⟩
      rw [List.append_assoc]
      exact (Viable.power hderives hviable s).behind [] fun _ _ h => ⟨_, .unsigned h⟩
  | @unclosed p s _ _ q hrest hinner _ _ =>
      cases he
      obtain ⟨ls, hls, hderives, _⟩ := hinner.derives rfl
      rw [Parser.upTo_rest] at hls
      have hclosed (t : Span) : factor.Derives (⟨.leftParen, s⟩ :: ls ++ [⟨.rightParen, t⟩]) _ :=
        .unsigned (.base (.parens hderives))
      refine ⟨⟨.leftParen, s⟩ :: ls, by rw [hrest, hls]; rfl, ?_⟩
      cases hnext with
      | nothing =>
          rw [List.append_nil]
          exact ⟨_, _, hclosed {}⟩
      | one hclass htoken =>
          obtain rfl := List.mem_singleton.mp hclass
          obtain rfl := of_decide_eq_true htoken
          exact (hclosed _).viable
  | @noInner p s _ _ q hrest _ ih =>
      obtain ⟨ms, hms, hviable⟩ := ih he hnext
      rw [Parser.upTo_rest] at hms
      refine ⟨_ :: ms, by rw [hrest, hms]; rfl, (hviable.parens s).behind [] ?_⟩
      exact fun _ _ h => ⟨_, .unsigned (.base h)⟩
  | @noOperand l _ _ _ _ ih =>
      obtain ⟨ls, hls, hviable⟩ := ih he hnext
      rw [asked_operand] at hviable
      exact ⟨ls, hls, hviable.behind [] (fun _ _ h => ⟨_, .operand h⟩)⟩
  | repetition hoperand _ _ ih =>
      obtain ⟨ls, hls, hderives, _⟩ := hoperand.derives rfl
      obtain ⟨ms, hms, hviable⟩ := ih he hnext ls (.operand hderives)
      refine ⟨ls ++ ms, by rw [hls, hms, List.append_assoc], ?_⟩
      rwa [List.append_assoc]
  | foldTooDeep hoperator hrest _ =>
      cases he
      cases hnext
      intro ls hleft
      obtain ⟨hmem, rfl⟩ := Level.operator?_eq_some_iff.mp hoperator
      exact ⟨[_], hrest, .operation hmem hleft (viable_nil _) _⟩
  | foldNoOperand hoperator hrest _ _ ih =>
      intro ls hleft
      obtain ⟨hmem, rfl⟩ := Level.operator?_eq_some_iff.mp hoperator
      obtain ⟨ms, hms, hviable⟩ := ih he hnext
      rw [Parser.enter_rest, Parser.upTo_rest] at hms
      rw [asked_operand] at hviable
      exact ⟨_ :: ms, by rw [hrest, hms]; rfl, .operation hmem hleft hviable _⟩
  | foldStep hoperator hrest _ hoperand _ _ ih =>
      intro ls hleft
      obtain ⟨hmem, rfl⟩ := Level.operator?_eq_some_iff.mp hoperator
      obtain ⟨ms, hms, hright, _⟩ := hoperand.derives rfl
      obtain ⟨ns, hns, hviable⟩ := ih he hnext _ (.operation hmem hleft hright)
      rw [Parser.enter_rest, Parser.upTo_rest] at hms
      refine ⟨_, by rw [hrest, hms, hns]; exact (List.append_assoc (_ :: ms) ns _).symm, ?_⟩
      rw [List.append_assoc] at hviable
      rwa [List.append_assoc]

/-! ### The refused list -/

namespace Parser

variable {lexemes : List Lexeme} {limit : Nat}

theorem whole_eq_error_iff : p.whole = (.error e, q) ↔ p.expression = (.error e, q) ∨
    ∃ e', p.expression = (.ok e', q) ∧ q.atEnd = false ∧ e = ⟨.expected TokenClass.operators, q.here⟩ := by
  constructor
  · intro h
    rcases hread : p.expression with ⟨refused | e', q'⟩
    · rw [whole_of_error hread] at h
      exact .inl h
    · rw [whole_of_ok hread] at h
      by_cases hend : q'.atEnd
      · rw [if_pos hend] at h
        cases h
      · rw [if_neg hend] at h
        cases h
        exact .inr ⟨e', rfl, Bool.eq_false_iff.mpr hend, rfl⟩
  · rintro (h | ⟨e', h, hend, rfl⟩)
    · exact whole_of_error h
    · rw [whole_of_ok h, hend]
      rfl

/-- Reading a list that begins like a refused one comes to where the refused reading came, and to no sentence.
-/
theorem expression_of_refused (h : (ofLexemes lexemes limit).whole = (.error e, q))
    (hcause : ∀ n, e.cause ≠ .tooDeep n) {ls : List Lexeme} (hls : lexemes = ls ++ q.rest) (rest : List Lexeme)
    (hhead : rest.head? = q.rest.head?) {more : Nat} (hmore : limit ≤ more) :
    ∃ result p₁, (ofLexemes (ls ++ rest) more).expression = (result, p₁) ∧
      ∀ e', result = .ok e' → p₁.rest = rest ∧ q.atEnd = false := by
  have hlevels : (ofLexemes (ls ++ rest) more).depth + (ofLexemes lexemes limit).limit ≤
      (ofLexemes lexemes limit).depth + (ofLexemes (ls ++ rest) more).limit := by simpa using hmore
  rcases whole_eq_error_iff.mp h with hread | ⟨e', hread, hend, _⟩
  · have hdeep : ¬IsTooDeep (.error e : Except SyntaxError Expr) := by
      rintro ⟨n, span, he⟩
      cases he
      exact hcause n rfl
    obtain ⟨q', _, hrun⟩ := (expression_eq_iff.mp hread).transfers hdeep _ hls rfl hhead hlevels
    refine ⟨_, q', expression_eq_iff.mpr hrun, ?_⟩
    intro e' he
    cases he
  · obtain ⟨q', hq', hrun⟩ := (expression_eq_iff.mp hread).transfers (not_isTooDeep_ok _) _ hls rfl hhead hlevels
    exact ⟨_, q', expression_eq_iff.mpr hrun, fun _ _ => ⟨hq', hend⟩⟩

theorem atEnd_of_head? (h : ∀ l ∈ q.rest.head?, l.value = .eof) : q.atEnd = true := by
  unfold atEnd
  split
  · next l ls hrest =>
    rw [hrest] at h
    exact decide_eq_true (h l rfl)
  · rfl

theorem here_eq : p.here = p.rest.head?.elim (.emptyAt p.stop) (·.span) := by
  unfold here
  split <;> simp [*]

/-- The span of a refusal of a whole list, whatever replacements it went through. -/
theorem span_of_whole (h : (ofLexemes lexemes limit).whole = (.error e, q)) :
    e.span = q.rest.head?.elim (lexemes.getLast?.elim {} fun l => .emptyAt l.span.stop) (·.span) := by
  have hplace : e.span = q.here ∧ q.stop = (ofLexemes lexemes limit).stop := by
    rcases whole_eq_error_iff.mp h with hread | ⟨_, hread, _, rfl⟩
    · have hrun := expression_eq_iff.mp hread
      exact ⟨hrun.located rfl, hrun.stop_eq⟩
    · exact ⟨rfl, (expression_eq_iff.mp hread).stop_eq⟩
  rw [hplace.1, here_eq, hplace.2]
  cases hlast : lexemes.getLast? with
  | none =>
      simp only [ofLexemes, hlast]
      rfl
  | some l =>
      simp only [ofLexemes, hlast]
      rfl

/-- What has been read begins a sentence, whatever came of it. -/
theorem viable_of_expression (h : p.expression = (result, q)) :
    ∃ ls, p.rest = ls ++ q.rest ∧ Rule.expression.Viable ls := by
  cases result with
  | error e =>
      obtain ⟨ls, hls, hviable⟩ := (expression_eq_iff.mp h).viable rfl .nothing
      rw [List.append_nil] at hviable
      exact ⟨ls, hls, hviable⟩
  | ok e =>
      obtain ⟨ls, hls, hderives, _⟩ := derives_of_expression h
      exact ⟨ls, hls, hderives.viable⟩

theorem viable_of_whole (h : (ofLexemes lexemes limit).whole = (.error e, q)) :
    ∃ ls, lexemes = ls ++ q.rest ∧ Rule.expression.Viable ls := by
  rcases whole_eq_error_iff.mp h with hread | ⟨_, hread, _, _⟩
  · exact viable_of_expression hread
  · exact viable_of_expression hread

end Parser

/-- A list that is no expression is refused at the first lexeme that no sentence goes on with. The error, also
when it is about the depth, is located at the first lexeme that has not been read, or behind the last one.
What has been read can be continued to a sentence. Unless the depth was exceeded, it cannot be continued with
the next lexeme, and if there is none it is no sentence itself. -/
theorem syntax_error_place {lexemes : List Lexeme} {limit : Nat} {e : SyntaxError} {q : Parser}
    (h : (Parser.ofLexemes lexemes limit).whole = (.error e, q)) :
    ∃ ls, lexemes = ls ++ q.rest ∧
      e.span = q.rest.head?.elim (lexemes.getLast?.elim {} fun l => .emptyAt l.span.stop) (·.span) ∧
      Rule.expression.Viable ls ∧
      ((∀ n, e.cause ≠ .tooDeep n) →
        (∀ l ∈ q.rest.head?, l.value ≠ .eof → ¬Rule.expression.Viable (ls ++ [l])) ∧
        ((∀ l ∈ q.rest.head?, l.value = .eof) → ∀ e', ¬Rule.expression.Derives ls e')) := by
  obtain ⟨ls, hls, hviable⟩ := Parser.viable_of_whole h
  refine ⟨ls, hls, Parser.span_of_whole h, hviable, ?_⟩
  intro hcause
  constructor
  · rintro l hl _ ⟨ms, e', hsentence⟩
    rw [List.append_assoc] at hsentence
    obtain ⟨result, p₁, hread, hrefused⟩ := Parser.expression_of_refused h hcause hls (l :: ms) hl.symm
      (Nat.le_add_right limit (ls ++ l :: ms).length)
    have hall := Parser.expression_of_derives
      (p := Parser.ofLexemes (ls ++ l :: ms) (limit + (ls ++ l :: ms).length)) (List.append_nil _).symm hsentence (by simp [NoOperatorNext]) (by simp)
    rw [hread, Prod.mk.injEq] at hall
    obtain ⟨hrest, _⟩ := hrefused e' hall.1
    rw [hall.2] at hrest
    cases hrest
  · intro hend e' hsentence
    obtain ⟨result, p₁, hread, hrefused⟩ := Parser.expression_of_refused h hcause hls q.rest rfl
      (Nat.le_add_right limit ls.length)
    have hatEnd := Parser.atEnd_of_head? hend
    have hall := Parser.expression_of_derives (p := Parser.ofLexemes (ls ++ q.rest) (limit + ls.length)) rfl
      hsentence (noOperatorNext_of_beforeEnd (Parser.atEnd_iff.mp hatEnd)) (by simp)
    rw [hread, Prod.mk.injEq] at hall
    obtain ⟨_, hnotEnd⟩ := hrefused e' hall.1
    rw [hatEnd] at hnotEnd
    cases hnotEnd

theorem syntax_error_place_noEqual :
    let s (n : Nat) : Span := ⟨⟨n, 0, n⟩, ⟨n + 1, 0, n + 1⟩⟩
    let one : Lexeme := ⟨.number (.int 1), s 6⟩
    let lexemes : List Lexeme := [⟨.keyword .var, s 0⟩, ⟨.identifier "x", s 4⟩, one]
    let p := Parser.ofLexemes lexemes 1
    let e : SyntaxError := ⟨.expected [.exactly .equal], s 6⟩
    p.whole = (.error e, p.upTo [one]) ∧
      ∃ ls, lexemes = ls ++ [one] ∧ Rule.expression.Viable ls ∧ ¬Rule.expression.Viable (ls ++ [one]) := by
  intro s one lexemes p e
  have hequal : NoneNext (Token.is? .equal) [one] := by
    intro l hl
    cases hl
    rfl
  have hbody : Reads (rule .expression) p.enter (.error e) (p.upTo [one]).enter :=
    .noEqual (x := ⟨"x", s 4⟩) rfl hequal
  have hrun : Reads (nested .expression) p (.error e) (p.upTo [one]) := .deeper (by decide) hbody
  have hwhole := Parser.whole_eq_error_iff.mpr (.inl (Parser.expression_eq_iff.mpr hrun))
  obtain ⟨ls, hls, _, hviable, hplace⟩ := syntax_error_place hwhole
  exact ⟨hwhole, ls, hls, hviable, (hplace nofun).1 one rfl nofun⟩

end LineCalc
