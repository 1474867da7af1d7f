import LineCalc.Proofs.SyntaxErrorPlace

/-!
The list of what was expected. With a token of a class that an error names, what has been read still begins a
sentence (`Reads.viable`). With a token of no such class it does not: the run that was refused made all its decisions
about the token behind what it has read by the classes that it names in the end, so it is refused in front of that
token too (`Reads.refuses`), while a sentence would be read to its end. Only the error about a missing parenthesis
names less than could come, as the expression in the parentheses could also go on.
-/

namespace LineCalc

open Lexeme Phrase Rule

/-! ### What can follow a finished phrase -/

theorem Level.strength_operand_le {l : Level} {op : BinaryOp} (hop : l.strength ≤ op.strength) (h : op ∉ l.operators) :
    l.operand.strength ≤ op.strength := by
  rw [mem_operators_iff] at h
  rw [strength_operand]
  exact Nat.lt_of_le_of_ne hop (Ne.symm h)

/-- Every operator that is tight enough can follow a phrase. -/
theorem Rule.Derives.viable_operator {r : Rule} {ls : List Lexeme} {e : Expr} (h : r.Derives ls e) {op : BinaryOp}
    (hop : r.strength ≤ op.strength) (s : Span) : r.Viable (ls ++ [⟨op.token, s⟩]) := by
  induction h with
  | assign _ ih => exact (ih hop).behind [_, _, _] fun _ _ h => ⟨_, .assign h⟩
  | logic _ ih => exact (ih hop).behind [] fun _ _ h => ⟨_, .logic h⟩
  | negation _ ih => exact (ih hop).behind [_] fun _ _ h => ⟨_, .negation h⟩
  | comparison _ ih => exact (ih hop).behind [] fun _ _ h => ⟨_, .comparison h⟩
  | sign hsign _ ih => exact (ih hop).behind [_] fun _ _ h => ⟨_, .sign hsign h⟩
  | unsigned _ ih => exact (ih hop).behind [] fun _ _ h => ⟨_, .unsigned h⟩
  | base hbase _ =>
      obtain rfl : op = .pow := by cases op <;> first | rfl | exact absurd hop (by decide)
      exact .power hbase (viable_nil _) s
  | @power ls base s' ms exponent hbase _ _ ih =>
      rw [List.append_assoc]
      exact .power hbase (ih hop) s'
  | number | name | parens => exact absurd hop (by cases op <;> decide)
  | @operand l ls e hoperand ih =>
      by_cases hlevel : op ∈ l.operators
      · exact .operation hlevel (.operand hoperand) (viable_nil _) s
      · exact (ih (Level.strength_operand_le hop hlevel)).behind [] fun _ _ h => ⟨_, .operand h⟩
  | @operation l op' ls left s' ms right hoperator hleft hright _ ih =>
      by_cases hlevel : op ∈ l.operators
      · exact .operation hlevel (.operation hoperator hleft hright) (viable_nil _) s
      · rw [List.append_assoc]
        exact .operation hoperator hleft (ih (Level.strength_operand_le hop hlevel)) s'

/-! ### Refused in front of another token -/

variable {phrase : Phrase} {p q : Parser} {result : Except SyntaxError Expr} {classes : List TokenClass} {span s : Span}
  {t : Token} {ls more : List Lexeme}

/-- Reading the phrase comes to a refusal. -/
def Phrase.Refuses (phrase : Phrase) (p : Parser) : Prop := ∃ e q, Reads phrase p (.error e) q

theorem Phrase.Reads.refuses_of_error (h : Reads phrase p result q) {e : SyntaxError} (he : result = .error e) :
    phrase.Refuses p := by
  subst he
  exact ⟨e, q, h⟩

theorem Parser.orExpected_error (e : SyntaxError) :
    ∃ e', p.orExpected classes (.error e : Except SyntaxError α) q = .error e' := by
  rw [orExpected]
  split
  · exact ⟨_, rfl⟩
  · exact ⟨_, rfl⟩

theorem Lexeme.noneNext_cons {f : Token → Option α} (h : f t = none) (s : Span) (ls : List Lexeme) :
    NoneNext f (⟨t, s⟩ :: ls) := by
  rintro _ ⟨⟩
  exact h

namespace Phrase.Reads

/-- A refusal that has read nothing names what the rule can start with. -/
theorem classes_of_unread : Reads phrase p result q → result = .error ⟨.expected classes, span⟩ →
    q.rest.length = p.rest.length →
    match phrase with
    | rule r | nested r => classes = r.asked.starters
    | fold _ _ => False := by
  intro h he hlength
  induction h generalizing span with
  | base | number | name | parens | foldEnd => cases he
  | tooDeep | foldTooDeep => cases he
  | deeper _ _ ih => exact ih he hlength
  | noName hrest | noEqual hrest =>
      simp only [hrest, Parser.upTo_rest, List.length_cons] at hlength
      omega
  | assign hrest hvalue =>
      have hle := hvalue.length_le
      simp only [hrest, Parser.upTo_rest, List.length_cons] at hle hlength
      omega
  | negation hrest hoperand | sign _ hrest hoperand | noInner hrest hoperand | unclosed hrest hoperand =>
      exact absurd hlength (Nat.ne_of_lt (hoperand.length_lt hrest))
  | logic | comparison =>
      obtain ⟨inner, rfl⟩ := Parser.error_of_orExpected he
      rw [Parser.orExpected, if_pos hlength] at he
      cases he
      rfl
  | unsigned _ _ ih | noBase _ ih => exact ih he hlength
  | power hbase hcaret hexponent =>
      exact absurd hlength (Nat.ne_of_lt (Nat.lt_of_lt_of_le (hexponent.length_lt hcaret) hbase.length_le))
  | noAtom =>
      cases he
      rfl
  | @noOperand l _ _ _ _ ih =>
      rw [ih he hlength]
      cases l <;> rfl
  | repetition hoperand hfold _ ih =>
      have hle := hoperand.length_le
      have hle' := hfold.length_le
      exact (ih he (Nat.le_antisymm hle' (hlength ▸ hle))).elim
  | foldNoOperand _ hrest _ hoperand =>
      have hle := hoperand.length_le
      simp only [hrest, Parser.enter_rest, Parser.upTo_rest, List.length_cons] at hle hlength
      omega
  | foldStep _ hrest _ hoperand hfold =>
      have hle := hoperand.length_le
      have hle' := hfold.length_le
      simp only [hrest, Parser.enter_rest, Parser.upTo_rest, List.length_cons] at hle hle' hlength
      omega

/-- If a rule has refused a list at its first token, it refuses one that starts with any other token that it did not
name. -/
theorem refuses_of_unread {r : Rule} {p' : Parser} (h : Reads (rule r) p result q)
    (he : result = .error ⟨.expected classes, span⟩) (hp : p.rest = q.rest) (hclass : ∀ c ∈ classes, ¬c.holds t)
    (hp' : p'.rest = ⟨t, s⟩ :: more) : Refuses (rule r) p' := by
  have hclasses : classes = r.asked.starters := h.classes_of_unread he (by rw [hp])
  have hrun := reads_read (rule r) p'
  cases hresult : ((rule r).read p').result with
  | error e => exact hrun.refuses_of_error hresult
  | ok e =>
      obtain ⟨ms, hms, hderives, _⟩ := hrun.derives hresult
      obtain ⟨l, ns, rfl, hl⟩ := hderives.first
      rw [hp', List.cons_append] at hms
      cases hms
      have hsub : r.starters ⊆ r.asked.starters := by
        cases r with
        | repetition l => exact List.Subset.refl _
        | _ => decide
      obtain ⟨c, hc, hholds⟩ := List.any_eq_true.mp (startsWith_of_subset hsub hl)
      rw [← hclasses] at hc
      exact absurd hholds (hclass c hc)

/-- A repetition that is refused has read an operator. -/
theorem cons_of_fold {l : Level} {left : Expr} {e : SyntaxError} (h : Reads (fold l left) p (.error e) q) :
    ∃ op rest, p.rest = op :: rest ∧ q.rest <:+ rest := by
  cases h with
  | foldTooDeep _ hrest _ => exact ⟨_, _, hrest, List.suffix_rfl⟩
  | foldNoOperand _ hrest _ hoperand => exact ⟨_, _, hrest, hoperand.suffix⟩
  | foldStep _ hrest _ hoperand hfold => exact ⟨_, _, hrest, hfold.suffix.trans hoperand.suffix⟩

/-- A first part of a run is read again where the same lexeme follows it. -/
theorem again {r : Rule} {e : Expr} {p₁ : Parser} {l : Lexeme} {rest rest' : List Lexeme}
    (h : Reads (rule r) p (.ok e) p₁) (hnext : p₁.rest = l :: rest) (hsuffix : q.rest <:+ rest) (p' : Parser)
    (hp : p.rest = ls ++ q.rest) (hp' : p'.rest = ls ++ rest') (hlevels : p'.depth + p.limit ≤ p.depth + p'.limit) :
    ∃ p₁' ms, rest = ms ++ q.rest ∧ p₁'.rest = l :: (ms ++ rest') ∧ Reads (rule r) p' (.ok e) p₁' ∧
      p₁'.depth + p₁.limit ≤ p₁.depth + p₁'.limit := by
  obtain ⟨ns, hns⟩ := h.suffix
  obtain ⟨ms, rfl⟩ := hsuffix
  obtain rfl : ls = ns ++ l :: ms := by
    rw [← hns, hnext, ← List.cons_append, ← List.append_assoc] at hp
    exact (List.append_cancel_right hp).symm
  rw [List.append_assoc] at hp'
  obtain ⟨p₁', hp₁', hrun⟩ := h.transfers (not_isTooDeep_ok _) p' hns.symm hp' (by rw [hnext]; rfl) hlevels
  have hdepth : p₁.depth = p.depth := h.depth_eq
  have hdepth' : p₁'.depth = p'.depth := hrun.depth_eq
  refine ⟨p₁', ms, rfl, hp₁', hrun, ?_⟩
  rw [h.limit_eq, hrun.limit_eq, hdepth, hdepth']
  exact hlevels

/-- A run that was refused is refused with any other token in the place where it stopped, unless it named that token or
only a closing parenthesis. -/
theorem refuses (hclass : ∀ c ∈ classes, ¬c.holds t) (hparen : classes ≠ [.exactly .rightParen])
    (h : Reads phrase p result q) (he : result = .error ⟨.expected classes, span⟩) (p' : Parser)
    (hp : p.rest = ls ++ q.rest) (hp' : p'.rest = ls ++ ⟨t, s⟩ :: more)
    (hlevels : p'.depth + p.limit ≤ p.depth + p'.limit) : phrase.Refuses p' := by
  -- As long as something is to be read before the place of the refusal, the next lexeme is the same on both lists,
  -- and so is the way taken. A rule that chooses its way at that place has read nothing, and its error named all its
  -- starters.
  induction h generalizing span p' ls with
  | base | number | name | parens | foldEnd => cases he
  | tooDeep | foldTooDeep => cases he
  | unclosed =>
      cases he
      exact absurd rfl hparen
  | deeper hdepth hbody ih =>
      obtain ⟨e, q', hrun⟩ := ih he p'.enter hp hp' (by simp; omega)
      exact ⟨e, q'.leave, .deeper (by omega) hrun⟩
  | noName hrest hname =>
      cases he
      obtain rfl : ls = [_] := List.append_cancel_right (hp.symm.trans hrest)
      have hnone : Token.identifier? t = none := by
        cases t with
        | identifier x => exact absurd rfl (hclass .identifier (by simp))
        | _ => rfl
      exact ⟨_, _, .noName hp' (noneNext_cons hnone _ _)⟩
  | noEqual hrest hequal =>
      cases he
      obtain rfl : ls = [_, _] := List.append_cancel_right (hp.symm.trans hrest)
      have hnone : Token.is? .equal t = none := if_neg fun ht => hclass (.exactly .equal) (by simp) (decide_eq_true ht)
      exact ⟨_, _, .noEqual hp' (noneNext_cons hnone _ _)⟩
  | assign hrest hvalue ih =>
      obtain ⟨ns, rfl, hns⟩ := split_append [_, _, _] hp hrest hvalue.suffix
      obtain ⟨e, q', hrun⟩ := ih (error_of_map he) (p'.upTo (ns ++ ⟨t, s⟩ :: more)) hns rfl hlevels
      exact (Reads.assign hp' hrun).refuses_of_error rfl
  | logic hvar hlogic ih =>
      cases ls with
      | nil => exact (Reads.logic hvar hlogic).refuses_of_unread he hp hclass hp'
      | cons l ls =>
          rw [Parser.orExpected_of_ne (by simp [hp]; omega)] at he
          obtain ⟨e, q', hrun⟩ := ih he p' hp hp' hlevels
          obtain ⟨e', he'⟩ := Parser.orExpected_error e
          exact (Reads.logic (hvar.congr (by rw [hp, hp']; rfl)) hrun).refuses_of_error he'
  | negation hrest hoperand ih =>
      obtain ⟨ns, rfl, hns⟩ := split_append [_] hp hrest hoperand.suffix
      obtain ⟨e, q', hrun⟩ := ih (error_of_map he) (p'.upTo (ns ++ ⟨t, s⟩ :: more)) hns rfl hlevels
      exact (Reads.negation hp' hrun).refuses_of_error rfl
  | comparison hnot hcomparison ih =>
      cases ls with
      | nil => exact (Reads.comparison hnot hcomparison).refuses_of_unread he hp hclass hp'
      | cons l ls =>
          rw [Parser.orExpected_of_ne (by simp [hp]; omega)] at he
          obtain ⟨e, q', hrun⟩ := ih he p' hp hp' hlevels
          obtain ⟨e', he'⟩ := Parser.orExpected_error e
          exact (Reads.comparison (hnot.congr (by rw [hp, hp']; rfl)) hrun).refuses_of_error he'
  | sign hsign hrest hoperand ih =>
      obtain ⟨ns, rfl, hns⟩ := split_append [_] hp hrest hoperand.suffix
      obtain ⟨e, q', hrun⟩ := ih (error_of_map he) (p'.upTo (ns ++ ⟨t, s⟩ :: more)) hns rfl hlevels
      exact (Reads.sign hsign hp' hrun).refuses_of_error rfl
  | unsigned hsign hpower ih =>
      cases ls with
      | nil => exact (Reads.unsigned hsign hpower).refuses_of_unread he hp hclass hp'
      | cons l ls =>
          obtain ⟨e, q', hrun⟩ := ih he p' hp hp' hlevels
          exact ⟨e, q', .unsigned (hsign.congr (by rw [hp, hp']; rfl)) hrun⟩
  | noBase hbase ih =>
      obtain ⟨e, q', hrun⟩ := ih he p' hp hp' hlevels
      exact ⟨e, q', .noBase hrun⟩
  | power hbase hcaret hexponent ihbase ih =>
      obtain ⟨p₁', ms, hms, hp₁', hrunbase, hlevels₁⟩ :=
        hbase.again hcaret hexponent.suffix p' hp hp' hlevels
      obtain ⟨e, q', hrun⟩ := ih (error_of_map he) (p₁'.upTo (ms ++ ⟨t, s⟩ :: more)) hms rfl hlevels₁
      exact (Reads.power hrunbase hp₁' hrun).refuses_of_error rfl
  | noInner hrest hinner ih =>
      obtain ⟨ns, rfl, hns⟩ := split_append [_] hp hrest hinner.suffix
      obtain ⟨e, q', hrun⟩ := ih he (p'.upTo (ns ++ ⟨t, s⟩ :: more)) hns rfl hlevels
      exact ⟨e, q', .noInner hp' hrun⟩
  | noAtom hnumber hname hclose =>
      obtain rfl : ls = [] := List.append_cancel_right (hp.symm.trans (List.nil_append _).symm)
      exact (Reads.noAtom hnumber hname hclose).refuses_of_unread he rfl hclass hp'
  | noOperand hoperand ih =>
      obtain ⟨e, q', hrun⟩ := ih he p' hp hp' hlevels
      exact ⟨e, q', .noOperand hrun⟩
  | repetition hoperand hfold ihoperand ih =>
      subst he
      obtain ⟨op, rest, hnext, hsuffix⟩ := hfold.cons_of_fold
      obtain ⟨p₁', ms, hms, hp₁', hrunoperand, hlevels₁⟩ := hoperand.again hnext hsuffix p' hp hp' hlevels
      rw [hms, ← List.cons_append] at hnext
      obtain ⟨e, q', hrun⟩ := ih rfl p₁' hnext hp₁' hlevels₁
      exact ⟨e, _, .repetition hrunoperand hrun⟩
  | foldNoOperand hoperator hrest hdepth hoperand ih =>
      obtain ⟨ns, rfl, hns⟩ := split_append [_] hp hrest hoperand.suffix
      obtain ⟨e, q', hrun⟩ := ih he (p'.upTo (ns ++ ⟨t, s⟩ :: more)).enter hns rfl (by simp; omega)
      exact ⟨e, q', .foldNoOperand hoperator hp' (by omega) hrun⟩
  | foldStep hoperator hrest hdepth hoperand hfold ihoperand ih =>
      subst he
      obtain ⟨ns, rfl, hns⟩ := split_append [_] hp hrest (hfold.suffix.trans hoperand.suffix)
      obtain ⟨op, rest, hnext, hsuffix⟩ := hfold.cons_of_fold
      obtain ⟨p₁', ms, hms, hp₁', hrunoperand, hlevels₁⟩ :=
        hoperand.again hnext hsuffix (p'.upTo (ns ++ ⟨t, s⟩ :: more)).enter hns rfl (by simp; omega)
      rw [hms, ← List.cons_append] at hnext
      obtain ⟨e, q', hrun⟩ := ih rfl p₁' hnext hp₁' hlevels₁
      exact ⟨e, q', .foldStep hoperator hp' (by omega) hrunoperand hrun⟩

end Phrase.Reads

/-! ### The refused list -/

namespace SyntaxError.Cause

theorem not_expected_tooDeep (limit : Nat) : ¬"Expected ".toList <+: (tooDeep limit).message.toList := by
  rintro ⟨rest, hrest⟩
  have htext : (tooDeep limit).message = "Maximum nesting depth of " ++ (toString limit ++ " exceeded") :=
    String.append_assoc
  rw [htext, String.toList_append] at hrest
  have hfirst : some 'E' = some 'M' := congrArg List.head? hrest
  exact absurd hfirst (by decide)

theorem classes_ne_of_message (h : (expected classes).message ≠ "Expected ')'") : classes ≠ [.exactly .rightParen] := by
  rintro rfl
  exact h rfl

end SyntaxError.Cause

namespace TokenClass

variable {c : TokenClass}

theorem mem_operators_iff : c ∈ operators ↔ ∃ op : BinaryOp, c = .exactly op.token := by
  constructor
  · intro h
    obtain ⟨op, _, rfl⟩ := List.mem_map.mp h
    exact ⟨op, rfl⟩
  · rintro ⟨op, rfl⟩
    exact List.mem_map_of_mem (by cases op <;> decide)

theorem holds_operator (op : BinaryOp) : (exactly op.token).holds op.token := by
  cases op <;> decide

end TokenClass

namespace Parser

variable {lexemes : List Lexeme} {limit : Nat}

/-- What has been read begins a sentence with each token of a class that was expected. -/
theorem viable_of_expected (h : (ofLexemes lexemes limit).whole = (.error ⟨.expected classes, span⟩, q))
    (hls : lexemes = ls ++ q.rest) {c : TokenClass} (hclass : c ∈ classes) (htoken : c.holds t) (s : Span) :
    Rule.expression.Viable (ls ++ [⟨t, s⟩]) := by
  rcases whole_eq_error_iff.mp h with hread | ⟨e', hread, _, he⟩
  · obtain ⟨ms, hms, hviable⟩ := (expression_eq_iff.mp hread).viable rfl (.one hclass htoken)
    obtain rfl : ls = ms := List.append_cancel_right (hls.symm.trans hms)
    exact hviable
  · cases he
    obtain ⟨ms, hms, hderives, _⟩ := derives_of_expression hread
    obtain rfl : ls = ms := List.append_cancel_right (hls.symm.trans hms)
    obtain ⟨op, rfl⟩ := TokenClass.mem_operators_iff.mp hclass
    obtain rfl : t = op.token := of_decide_eq_true htoken
    exact hderives.viable_operator (Nat.zero_le _) s

/-- No sentence goes on with a token that was not expected. -/
theorem not_viable_of_expected (h : (ofLexemes lexemes limit).whole = (.error ⟨.expected classes, span⟩, q))
    (hls : lexemes = ls ++ q.rest) (hparen : classes ≠ [.exactly .rightParen]) (hclass : ∀ c ∈ classes, ¬c.holds t) :
    ¬Rule.expression.Viable (ls ++ [⟨t, s⟩]) := by
  rintro ⟨more, e, hsentence⟩
  rw [List.append_assoc, List.cons_append, List.nil_append] at hsentence
  let p := ofLexemes (ls ++ ⟨t, s⟩ :: more) (limit + (ls ++ ⟨t, s⟩ :: more).length)
  have hall : p.expression = (.ok e, p.upTo []) :=
    expression_of_derives (List.append_nil _).symm hsentence (by simp [NoOperatorNext]) (by simp [p])
  rcases whole_eq_error_iff.mp h with hread | ⟨e', hread, _, he⟩
  · obtain ⟨e', q', hrun⟩ := (expression_eq_iff.mp hread).refuses hclass hparen rfl p hls rfl (by simp [p])
    rw [expression_eq_iff.mpr hrun] at hall
    cases hall
  · cases he
    obtain ⟨ms, hms, hderives, _⟩ := derives_of_expression hread
    obtain rfl : ls = ms := List.append_cancel_right (hls.symm.trans hms)
    have hstop : NoOperatorNext (⟨t, s⟩ :: more) := by
      rintro _ ⟨⟩ op rfl
      exact hclass _ (TokenClass.mem_operators_iff.mpr ⟨op, rfl⟩) (TokenClass.holds_operator op)
    have hfirst : p.expression = (.ok e', p.upTo (⟨t, s⟩ :: more)) :=
      expression_of_derives rfl hderives hstop (by simp [p]; omega)
    have hrest := congrArg (·.2.rest) (hall.symm.trans hfirst)
    cases hrest

end Parser

/-- The list of what was expected is right. Suppose that a list is refused with a message of that kind, and that the
lexemes `ls` have been read by then. With any token of a class that the message names, `ls` begins a sentence. Unless
the message names a closing parenthesis only, each token with which `ls` begins a sentence is of a class that it names.
-/
theorem expected_tokens {lexemes : List Lexeme} {limit : Nat} {e : SyntaxError} {q : Parser}
    (h : (Parser.ofLexemes lexemes limit).whole = (.error e, q))
    (hmessage : "Expected ".toList <+: e.cause.message.toList) :
    ∃ ls classes, lexemes = ls ++ q.rest ∧ e.cause = .expected classes ∧
      e.cause.message = "Expected " ++ TokenClass.enumerate classes ∧
      (∀ c ∈ classes, ∀ t, c.holds t → ∀ s, Rule.expression.Viable (ls ++ [⟨t, s⟩])) ∧
      (e.cause.message ≠ "Expected ')'" →
        ∀ t s, Rule.expression.Viable (ls ++ [⟨t, s⟩]) → ∃ c ∈ classes, c.holds t) := by
  obtain ⟨ls, hls, _⟩ := Parser.viable_of_whole h
  obtain ⟨cause, span⟩ := e
  cases cause with
  | tooDeep n => exact absurd hmessage (SyntaxError.Cause.not_expected_tooDeep n)
  | expected classes =>
      refine ⟨ls, classes, hls, rfl, rfl, ?_, ?_⟩
      · intro c hclass t htoken s
        exact Parser.viable_of_expected h hls hclass htoken s
      · intro hparen t s hviable
        cases hany : classes.any (·.holds t) with
        | true => exact List.any_eq_true.mp hany
        | false =>
            have hclasses := SyntaxError.Cause.classes_ne_of_message hparen
            exact absurd hviable (Parser.not_viable_of_expected h hls hclasses (List.any_eq_false.mp hany))

theorem expected_tokens_condition :
    let lexemes : List Lexeme := [⟨.keyword .not, {}⟩, ⟨.rightParen, {}⟩]
    let p := Parser.ofLexemes lexemes 3
    let e : SyntaxError := ⟨.expected TokenClass.conditionStart, {}⟩
    p.whole = (.error e, p.upTo [⟨.rightParen, {}⟩]) ∧
      e.cause.message = "Expected int, float, identifier, '+', '-', '(' or 'NOT'" ∧
      Rule.expression.Viable [⟨.keyword .not, {}⟩, ⟨.keyword .not, {}⟩] ∧
      ¬Rule.expression.Viable [⟨.keyword .not, {}⟩, ⟨.keyword .var, {}⟩] := by
  intro lexemes p e
  have hwhole : p.whole = (.error e, p.upTo [⟨.rightParen, {}⟩]) := by cbv
  have hmessage : e.cause.message = "Expected int, float, identifier, '+', '-', '(' or 'NOT'" := rfl
  obtain ⟨ls, classes, hls, hcause, _, hsound, hcomplete⟩ := expected_tokens hwhole (by decide)
  have hread : [⟨.keyword .not, {}⟩] ++ [⟨.rightParen, {}⟩] = ls ++ [⟨.rightParen, {}⟩] := hls
  obtain rfl := List.append_cancel_right hread
  cases hcause
  refine ⟨hwhole, hmessage, hsound (.exactly (.keyword .not)) (by decide) (.keyword .not) (by decide) {}, ?_⟩
  intro hviable
  obtain ⟨c, hc, hholds⟩ := hcomplete (by rw [hmessage]; decide) (.keyword .var) {} hviable
  revert c
  decide

end LineCalc
