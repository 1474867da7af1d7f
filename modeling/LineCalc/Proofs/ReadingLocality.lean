import LineCalc.Proofs.ReadingRun

/-!
A run looks at the lexemes it reads and at the one behind them, and at nothing else. So it goes the same way,
to the same result at the corresponding place, wherever these lexemes stand and however much more the limit
allows, unless it ended at the limit (`Reads.transfers`). A refusal at the limit has always read something of
its rule, so no attempt replaces it (`Reads.progress_of_tooDeep`).
-/

namespace LineCalc

/-- The result with a refusal moved to where `q` stands. -/
def Parser.relocate (q : Parser) (result : Except SyntaxError α) : Except SyntaxError α :=
  result.mapError fun e => ⟨e.cause, q.here⟩

/-- Reading stopped at the limit. -/
def IsTooDeep (result : Except SyntaxError α) : Prop := ∃ limit span, result = .error ⟨.tooDeep limit, span⟩

section

variable {p q : Parser} {result : Except SyntaxError α} {f : α → β} {classes : List TokenClass}

theorem Parser.relocate_map : q.relocate (result.map f) = (q.relocate result).map f := by
  cases result <;> rfl

@[simp] theorem not_isTooDeep_ok (a : α) : ¬IsTooDeep (.ok a) := by
  rintro ⟨_, _, h⟩
  cases h

@[simp] theorem not_isTooDeep_expected (p : Parser) (classes : List TokenClass) :
    ¬IsTooDeep (p.refusal (.expected classes) : Except SyntaxError α) := by
  rintro ⟨_, _, h⟩
  cases h

@[simp] theorem isTooDeep_map : IsTooDeep (result.map f) ↔ IsTooDeep result := by
  cases result with
  | ok a => simp [Except.map]
  | error e => simp [IsTooDeep, Except.map]

theorem isTooDeep_of_orExpected (h : IsTooDeep (p.orExpected classes result q)) : IsTooDeep result := by
  cases result with
  | ok a => exact absurd h (not_isTooDeep_ok a)
  | error e =>
      rw [Parser.orExpected] at h
      split at h
      · exact absurd h (not_isTooDeep_expected p classes)
      · exact h

theorem Parser.orExpected_of_ne (hlength : q.rest.length ≠ p.rest.length) :
    p.orExpected classes result q = result := by
  cases result with
  | ok a => rfl
  | error e => rw [orExpected, if_neg hlength]

/-- Moving a refusal and naming what was expected can be done in either order. -/
theorem Parser.relocate_orExpected {p' q' : Parser} {ls : List Lexeme} (hp : p.rest = ls ++ q.rest)
    (hp' : p'.rest = ls ++ q'.rest) (hstop : q'.stop = p'.stop) :
    q'.relocate (p.orExpected classes result q) = p'.orExpected classes (q'.relocate result) q' := by
  cases result with
  | ok a => rfl
  | error e =>
      cases ls with
      | nil =>
          have hhere : q'.here = p'.here := by rw [here, here, hp', hstop, List.nil_append]
          rw [orExpected, if_pos (by rw [hp]; rfl)]
          show q'.relocate (p.refusal _) = p'.orExpected classes (.error ⟨e.cause, q'.here⟩) q'
          rw [orExpected, if_pos (by rw [hp']; rfl), refusal, refusal, ← hhere]
          rfl
      | cons l ls =>
          rw [orExpected_of_ne (by simp [hp]; omega), orExpected_of_ne (by simp [hp']; omega)]

end

theorem Lexeme.NoneNext.congr {f : Token → Option α} {ls ms : List Lexeme} (h : NoneNext f ls)
    (hhead : ms.head? = ls.head?) : NoneNext f ms := by
  unfold NoneNext
  rwa [hhead]

theorem head?_append_congr {ms ms' : List Lexeme} (hhead : ms'.head? = ms.head?) (ls : List Lexeme) :
    (ls ++ ms').head? = (ls ++ ms).head? := by
  rw [List.head?_append, List.head?_append, hhead]

/-- A list cut in two places, the second not before the first. -/
theorem split_append {as bs cs ls : List Lexeme} (ms : List Lexeme) (hcs : as = ls ++ cs) (hbs : as = ms ++ bs)
    (hsuffix : cs <:+ bs) :
    ∃ ns, ls = ms ++ ns ∧ bs = ns ++ cs := by
  obtain ⟨ns, rfl⟩ := hsuffix
  refine ⟨ns, ?_, rfl⟩
  rw [hcs, ← List.append_assoc] at hbs
  exact List.append_cancel_right hbs

namespace Phrase.Reads

variable {phrase : Phrase} {p q : Parser} {result : Except SyntaxError Expr}

theorem length_le (h : Reads phrase p result q) : q.rest.length ≤ p.rest.length := h.suffix.length_le

theorem length_lt {l : Lexeme} {ls : List Lexeme} (h : Reads phrase (p.upTo ls) result q)
    (hrest : p.rest = l :: ls) :
    q.rest.length < p.rest.length := by
  rw [hrest]
  exact Nat.lt_succ_of_le h.length_le

/-- A rule that stops at the limit has read something: only the way down from `nested` itself has not. -/
theorem progress_of_tooDeep : Reads phrase p result q → IsTooDeep result →
    match phrase with
    | nested _ => True
    | _ => q.rest.length < p.rest.length := by
  intro h hdeep
  induction h with
  | tooDeep | deeper => trivial
  | noName | noEqual | unclosed | noAtom => exact absurd hdeep (not_isTooDeep_expected _ _)
  | base | number | name | parens | foldEnd => exact absurd hdeep (not_isTooDeep_ok _)
  | assign hrest hvalue =>
      have hle := hvalue.length_le
      rw [Parser.upTo_rest] at hle
      simp only [hrest, List.length_cons]
      omega
  | negation hrest hoperand | sign _ hrest hoperand | noInner hrest hoperand => exact hoperand.length_lt hrest
  | logic _ hlogic ih | comparison _ hlogic ih => exact ih (isTooDeep_of_orExpected hdeep)
  | unsigned _ _ ih | noBase _ ih | noOperand _ ih => exact ih hdeep
  | power hbase hcaret hexponent => exact Nat.lt_of_lt_of_le (hexponent.length_lt hcaret) hbase.length_le
  | repetition hoperand _ _ ih => exact Nat.lt_of_lt_of_le (ih hdeep) hoperand.length_le
  | foldTooDeep _ hrest _ => simp [hrest]
  | foldNoOperand _ hrest _ hoperand =>
      rw [hrest]
      exact Nat.lt_succ_of_le hoperand.length_le
  | foldStep _ hrest _ hoperand hfold =>
      rw [hrest]
      exact Nat.lt_succ_of_le (Nat.le_trans hfold.length_le hoperand.length_le)

/-- No attempt replaces a refusal at the limit. -/
theorem orExpected_of_isTooDeep {l : Level} {classes : List TokenClass} (h : Reads (rule (.repetition l)) p result q)
    (hdeep : IsTooDeep result) : p.orExpected classes result q = result :=
  Parser.orExpected_of_ne (Nat.ne_of_lt (h.progress_of_tooDeep hdeep))

theorem not_isTooDeep {l : Level} {classes : List TokenClass} (h : Reads (rule (.repetition l)) p result q)
    (hdeep : ¬IsTooDeep (p.orExpected classes result q)) : ¬IsTooDeep result := by
  intro hresult
  rw [h.orExpected_of_isTooDeep hresult] at hdeep
  exact hdeep hresult

/-- The run goes the same way in front of any other lexemes that begin with the same one, if the limit leaves
as many levels. -/
def Transfers (phrase : Phrase) (p : Parser) (result : Except SyntaxError Expr) (q : Parser) : Prop :=
  ∀ (p' : Parser) {ls rest' : List Lexeme}, p.rest = ls ++ q.rest → p'.rest = ls ++ rest' →
    rest'.head? = q.rest.head? → p'.depth + p.limit ≤ p.depth + p'.limit →
      ∃ q', q'.rest = rest' ∧ Reads phrase p' (q'.relocate result) q'

/-- A first part of a run, carried over with what is read after it. -/
theorem Transfers.first {r : Rule} {e : Expr} {p₁ : Parser} {ls rest' : List Lexeme}
    (htransfers : Transfers (rule r) p (.ok e) p₁) (h : Reads (rule r) p (.ok e) p₁)
    (hsuffix : q.rest <:+ p₁.rest) (p' : Parser) (hp : p.rest = ls ++ q.rest) (hp' : p'.rest = ls ++ rest')
    (hhead : rest'.head? = q.rest.head?) (hlevels : p'.depth + p.limit ≤ p.depth + p'.limit) :
    ∃ p₁' ms, p₁.rest = ms ++ q.rest ∧ p₁'.rest = ms ++ rest' ∧ Reads (rule r) p' (.ok e) p₁' ∧
      p₁'.depth + p₁.limit ≤ p₁.depth + p₁'.limit := by
  obtain ⟨ns, hns⟩ := h.suffix
  obtain ⟨ms, rfl, hms⟩ := split_append _ hp hns.symm hsuffix
  rw [List.append_assoc] at hp'
  obtain ⟨p₁', hp₁', hrun⟩ := htransfers p' hns.symm hp' (by rw [hms, head?_append_congr hhead]) hlevels
  have hdepth : p₁.depth = p.depth := h.depth_eq
  have hdepth' : p₁'.depth = p'.depth := hrun.depth_eq
  refine ⟨p₁', ms, hms, hp₁', hrun, ?_⟩
  rw [h.limit_eq, hrun.limit_eq, hdepth, hdepth']
  exact hlevels

theorem transfers (h : Reads phrase p result q) (hdeep : ¬IsTooDeep result) :
    Transfers phrase p result q := by
  induction h with
  | tooDeep | foldTooDeep => exact absurd ⟨_, _, rfl⟩ hdeep
  | deeper hdepth hbody ih =>
      intro p' ls rest' hp hp' hhead hlevels
      obtain ⟨q', hq', hrun⟩ := ih hdeep p'.enter hp hp' hhead (by simp; omega)
      exact ⟨q'.leave, hq', .deeper (by omega) hrun⟩
  | noName hrest hname =>
      intro p' ls rest' hp hp' hhead _
      obtain rfl : ls = [_] := List.append_cancel_right (hp.symm.trans hrest)
      exact ⟨p'.upTo rest', rfl, .noName hp' (hname.congr hhead)⟩
  | noEqual hrest hequal =>
      intro p' ls rest' hp hp' hhead _
      obtain rfl : ls = [_, _] := List.append_cancel_right (hp.symm.trans hrest)
      exact ⟨p'.upTo rest', rfl, .noEqual hp' (hequal.congr hhead)⟩
  | assign hrest hvalue ih =>
      intro p' ls rest' hp hp' hhead hlevels
      obtain ⟨ns, rfl, hns⟩ := split_append [_, _, _] hp hrest hvalue.suffix
      rw [isTooDeep_map] at hdeep
      obtain ⟨q', hq', hrun⟩ := ih hdeep (p'.upTo (ns ++ rest')) hns rfl hhead hlevels
      refine ⟨q', hq', ?_⟩
      rw [Parser.relocate_map]
      exact .assign hp' hrun
  | logic hvar hlogic ih =>
      intro p' ls rest' hp hp' hhead hlevels
      obtain ⟨q', rfl, hrun⟩ := ih (hlogic.not_isTooDeep hdeep) p' hp hp' hhead hlevels
      refine ⟨q', rfl, ?_⟩
      rw [Parser.relocate_orExpected hp hp' hrun.stop_eq]
      exact .logic (hvar.congr (by rw [hp, hp', head?_append_congr hhead])) hrun
  | negation hrest hoperand ih =>
      intro p' ls rest' hp hp' hhead hlevels
      obtain ⟨ns, rfl, hns⟩ := split_append [_] hp hrest hoperand.suffix
      rw [isTooDeep_map] at hdeep
      obtain ⟨q', hq', hrun⟩ := ih hdeep (p'.upTo (ns ++ rest')) hns rfl hhead hlevels
      refine ⟨q', hq', ?_⟩
      rw [Parser.relocate_map]
      exact .negation hp' hrun
  | comparison hnot hcomparison ih =>
      intro p' ls rest' hp hp' hhead hlevels
      obtain ⟨q', rfl, hrun⟩ := ih (hcomparison.not_isTooDeep hdeep) p' hp hp' hhead hlevels
      refine ⟨q', rfl, ?_⟩
      rw [Parser.relocate_orExpected hp hp' hrun.stop_eq]
      exact .comparison (hnot.congr (by rw [hp, hp', head?_append_congr hhead])) hrun
  | sign hsign hrest hoperand ih =>
      intro p' ls rest' hp hp' hhead hlevels
      obtain ⟨ns, rfl, hns⟩ := split_append [_] hp hrest hoperand.suffix
      rw [isTooDeep_map] at hdeep
      obtain ⟨q', hq', hrun⟩ := ih hdeep (p'.upTo (ns ++ rest')) hns rfl hhead hlevels
      refine ⟨q', hq', ?_⟩
      rw [Parser.relocate_map]
      exact .sign hsign hp' hrun
  | unsigned hsign _ ih =>
      intro p' ls rest' hp hp' hhead hlevels
      obtain ⟨q', hq', hrun⟩ := ih hdeep p' hp hp' hhead hlevels
      exact ⟨q', hq', .unsigned (hsign.congr (by rw [hp, hp', head?_append_congr hhead])) hrun⟩
  | noBase _ ih =>
      intro p' ls rest' hp hp' hhead hlevels
      obtain ⟨q', hq', hrun⟩ := ih hdeep p' hp hp' hhead hlevels
      exact ⟨q', hq', .noBase hrun⟩
  | base _ hcaret ih =>
      intro p' ls rest' hp hp' hhead hlevels
      obtain ⟨q', rfl, hrun⟩ := ih hdeep p' hp hp' hhead hlevels
      exact ⟨q', rfl, .base hrun (hcaret.congr hhead)⟩
  | power hbase hcaret hexponent ihbase ih =>
      intro p' ls rest' hp hp' hhead hlevels
      obtain ⟨p₁', ms, hms, hp₁', hrunbase, hlevels₁⟩ := Transfers.first (ihbase (not_isTooDeep_ok _)) hbase
        (hexponent.suffix.trans (Parser.suffix_of_cons hcaret)) p' hp hp' hhead hlevels
      obtain ⟨ns, rfl, hns⟩ := split_append [_] hms hcaret hexponent.suffix
      rw [isTooDeep_map] at hdeep
      obtain ⟨q', hq', hrun⟩ := ih hdeep (p₁'.upTo (ns ++ rest')) hns rfl hhead hlevels₁
      refine ⟨q', hq', ?_⟩
      rw [Parser.relocate_map]
      exact .power hrunbase hp₁' hrun
  | number hrest =>
      intro p' ls rest' hp hp' _ _
      obtain rfl : ls = [_] := List.append_cancel_right (hp.symm.trans hrest)
      exact ⟨p'.upTo rest', rfl, .number hp'⟩
  | name hrest =>
      intro p' ls rest' hp hp' _ _
      obtain rfl : ls = [_] := List.append_cancel_right (hp.symm.trans hrest)
      exact ⟨p'.upTo rest', rfl, .name hp'⟩
  | @parens p s ms e q t os hrest hinner hclose ih =>
      intro p' ls rest' hp hp' hhead hlevels
      obtain ⟨ns, rfl, hns⟩ := split_append [_] hp hrest ((Parser.suffix_of_cons hclose).trans hinner.suffix)
      obtain ⟨us, hus⟩ := hinner.suffix
      obtain rfl : ns = us ++ [⟨.rightParen, t⟩] := by
        rw [hclose, Parser.upTo_rest, List.append_cons] at hus
        exact List.append_cancel_right (hns.symm.trans hus.symm)
      rw [List.append_assoc] at hns
      obtain ⟨q', hq', hrun⟩ := ih (not_isTooDeep_ok _)
        (p'.upTo (us ++ ⟨.rightParen, t⟩ :: rest')) hus.symm rfl (by rw [hclose]; rfl) hlevels
      refine ⟨q'.upTo rest', rfl, .parens (s := s) ?_ hrun hq'⟩
      simpa using hp'
  | unclosed hrest hinner hclose ih =>
      intro p' ls rest' hp hp' hhead hlevels
      obtain ⟨ns, rfl, hns⟩ := split_append [_] hp hrest hinner.suffix
      obtain ⟨q', rfl, hrun⟩ := ih (not_isTooDeep_ok _) (p'.upTo (ns ++ rest')) hns rfl hhead hlevels
      exact ⟨q', rfl, .unclosed hp' hrun (hclose.congr hhead)⟩
  | noInner hrest hinner ih =>
      intro p' ls rest' hp hp' hhead hlevels
      obtain ⟨ns, rfl, hns⟩ := split_append [_] hp hrest hinner.suffix
      obtain ⟨q', hq', hrun⟩ := ih hdeep (p'.upTo (ns ++ rest')) hns rfl hhead hlevels
      exact ⟨q', hq', .noInner hp' hrun⟩
  | noAtom hnumber hname hparen =>
      intro p' ls rest' hp hp' hhead _
      obtain rfl : ls = [] := List.append_cancel_right (hp.symm.trans (List.nil_append _).symm)
      obtain rfl : p'.rest = rest' := hp'
      exact ⟨p', rfl, .noAtom (hnumber.congr hhead) (hname.congr hhead) (hparen.congr hhead)⟩
  | noOperand _ ih =>
      intro p' ls rest' hp hp' hhead hlevels
      obtain ⟨q', hq', hrun⟩ := ih hdeep p' hp hp' hhead hlevels
      exact ⟨q', hq', .noOperand hrun⟩
  | repetition hoperand hfold ihoperand ih =>
      intro p' ls rest' hp hp' hhead hlevels
      obtain ⟨p₁', ms, hms, hp₁', hrunoperand, hlevels₁⟩ :=
        Transfers.first (ihoperand (not_isTooDeep_ok _)) hoperand hfold.suffix p' hp hp' hhead hlevels
      obtain ⟨q', hq', hrun⟩ := ih hdeep p₁' hms hp₁' hhead hlevels₁
      exact ⟨{ q' with depth := p₁'.depth }, hq', .repetition hrunoperand hrun⟩
  | foldEnd hoperator =>
      intro p' ls rest' hp hp' hhead _
      obtain rfl : ls = [] := List.append_cancel_right (hp.symm.trans (List.nil_append _).symm)
      obtain rfl : p'.rest = rest' := hp'
      exact ⟨p', rfl, .foldEnd (hoperator.congr hhead)⟩
  | foldNoOperand hoperator hrest hdepth hoperand ih =>
      intro p' ls rest' hp hp' hhead hlevels
      obtain ⟨ns, rfl, hns⟩ := split_append [_] hp hrest hoperand.suffix
      obtain ⟨q', hq', hrun⟩ := ih hdeep ((p'.upTo (ns ++ rest')).enter) hns rfl hhead (by simp; omega)
      exact ⟨q', hq', .foldNoOperand hoperator hp' (by omega) hrun⟩
  | foldStep hoperator hrest hdepth hoperand hfold ihoperand ih =>
      intro p' ls rest' hp hp' hhead hlevels
      obtain ⟨ns, rfl, hns⟩ := split_append [_] hp hrest (hfold.suffix.trans hoperand.suffix)
      obtain ⟨p₁', ms, hms, hp₁', hrunoperand, hlevels₁⟩ :=
        Transfers.first (ihoperand (not_isTooDeep_ok _)) hoperand hfold.suffix (p'.upTo (ns ++ rest')).enter hns rfl
          hhead (by simp; omega)
      obtain ⟨q', hq', hrun⟩ := ih hdeep p₁' hms hp₁' hhead hlevels₁
      exact ⟨q', hq', .foldStep hoperator hp' (by omega) hrunoperand hrun⟩

end Phrase.Reads
end LineCalc
