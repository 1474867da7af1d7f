import LineCalc.Proofs.SyntaxErrorPlace
import Mathlib

/-!
One parser, asked again and again. An answer, a refusal too, leaves the parser as it was but for lexemes that it has
read, and none of these is an end of the text (`ReadTo.answer`). So a parser that has something left to read cannot be
told from a new one over what is left.
-/

namespace LineCalc.Parser

/-- What can be asked of a parser. -/
inductive Request where
  | expression
  | whole

def answer (p : Parser) : Request → Except SyntaxError Expr × Parser
  | .expression => p.expression
  | .whole => p.whole

/-- The parser after all the requests, whatever came of them. -/
def after (p : Parser) (requests : List Request) : Parser :=
  requests.foldl (fun p request => (p.answer request).2) p

/-- The parser `q` is `p` with some more lexemes read, none of them an end. -/
def ReadTo (p q : Parser) : Prop :=
  ∃ ls, p.rest = ls ++ q.rest ∧ (∀ l ∈ ls, l.value ≠ .eof) ∧ q = p.upTo q.rest

variable {p q r : Parser} {result : Except SyntaxError Expr}

/-! ### One request -/

theorem upTo_of_expression (h : p.expression = (result, q)) : q = p.upTo q.rest := by
  have hrun := expression_eq_iff.mp h
  have hstop := hrun.stop_eq
  have hdepth : q.depth = p.depth := hrun.depth_eq
  have hlimit := hrun.limit_eq
  cases q
  simp_all [upTo]

theorem readTo_expression (h : p.expression = (result, q)) : p.ReadTo q := by
  obtain ⟨ls, hls, ms, e, hderives⟩ := viable_of_expression h
  refine ⟨ls, hls, ?_, upTo_of_expression h⟩
  intro l hl
  exact hderives.value_ne_eof l (List.mem_append_left ms hl)

/-- Both requests read the same. -/
theorem answer_snd (p : Parser) (request : Request) : (p.answer request).2 = p.expression.2 := by
  cases request with
  | expression => rfl
  | whole =>
      rw [answer, whole]
      split
      · next hread => rw [hread]
      · rfl

namespace ReadTo

theorem refl (p : Parser) : p.ReadTo p := ⟨[], rfl, by simp, rfl⟩

theorem trans (h : p.ReadTo q) (h' : q.ReadTo r) : p.ReadTo r := by
  obtain ⟨ls, hls, hnone, hq⟩ := h
  obtain ⟨ms, hms, hnone', hr⟩ := h'
  refine ⟨ls ++ ms, by rw [hls, hms, List.append_assoc], ?_, by rw [hr, hq]; rfl⟩
  intro l hl
  exact (List.mem_append.mp hl).elim (hnone l) (hnone' l)

theorem answer (p : Parser) (request : Request) : p.ReadTo (p.answer request).2 := by
  rw [answer_snd]
  exact readTo_expression rfl

/-! ### Any number of requests -/

theorem after (requests : List Request) (p : Parser) : p.ReadTo (p.after requests) := by
  induction requests generalizing p with
  | nil => exact refl p
  | cons request requests ih => exact (answer p request).trans (ih _)

/-- A parser that has not come to the end of its list is a new one over what is left. -/
theorem ofLexemes_rest {lexemes : List Lexeme} {limit : Nat} (h : (ofLexemes lexemes limit).ReadTo q)
    (hrest : q.rest ≠ []) : ofLexemes q.rest limit = q := by
  obtain ⟨ls, hls, _, hq⟩ := h
  rw [Parser.ofLexemes_rest] at hls
  have hlast : lexemes.getLast? = q.rest.getLast? := by
    rw [hls, List.getLast?_append, List.getLast?_eq_some_getLast hrest]
    rfl
  rw [hq, ofLexemes, ofLexemes, upTo, hlast]

end ReadTo
end Parser

/-- A parser can be used again after any outcome. Whatever was asked of it, it is not nested, and what it has read is
the beginning of its list and has no end of the text in it. Another request reads on from there. Unless the whole list
has been read, that request is answered like the same request to a new parser over the lexemes that are left, with the
same limit, and reads as many of them. -/
theorem parser_reuse (lexemes : List Lexeme) (limit : Nat) (requests : List Parser.Request) :
    let p := (Parser.ofLexemes lexemes limit).after requests
    p.depth = 0 ∧ (∃ read, lexemes = read ++ p.rest ∧ ∀ l ∈ read, l.value ≠ .eof) ∧
      ∀ request, (p.answer request).2.rest <:+ p.rest ∧
        (p.rest ≠ [] → (Parser.ofLexemes p.rest limit).answer request = p.answer request) := by
  intro p
  have hread : (Parser.ofLexemes lexemes limit).ReadTo p := .after requests _
  have ⟨ls, hls, hnone, hp⟩ := hread
  refine ⟨by rw [hp]; rfl, ⟨ls, hls, hnone⟩, ?_⟩
  intro request
  obtain ⟨ms, hms, _⟩ := Parser.ReadTo.answer p request
  refine ⟨⟨ms, hms.symm⟩, ?_⟩
  intro hrest
  rw [hread.ofLexemes_rest hrest]

/-- A refusal to go deeper, with an open parenthesis read, is forgotten. -/
theorem parser_reuse_tooDeep :
    let left : Lexeme := ⟨.leftParen, {}⟩
    let one : Lexeme := ⟨.number (.int 1), {}⟩
    let p := (Parser.ofLexemes [left, left, one] 1).after [.whole, .expression]
    p.rest = [one] ∧ (p.answer .whole).1 = .ok (.number ⟨.int 1, {}⟩) ∧
      (Parser.ofLexemes [one] 1).answer .whole = p.answer .whole := by
  intro left one p
  have hrest : ((Parser.ofLexemes [left, left, one] 1).after [.whole, .expression]).rest = [one] := by cbv
  obtain ⟨_, _, hanswer⟩ := parser_reuse [left, left, one] 1 [.whole, .expression]
  have hfresh := (hanswer .whole).2 (by rw [hrest]; exact List.cons_ne_nil _ _)
  rw [hrest] at hfresh
  have hone : ((Parser.ofLexemes [one] 1).answer .whole).1 = .ok (.number ⟨.int 1, {}⟩) := by cbv
  exact ⟨hrest, by rw [← hone, hfresh], hfresh⟩

end LineCalc
