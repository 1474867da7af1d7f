import LineCalc.Grammar.Read

/-!
The runs of the reader as a relation: one constructor for each way a phrase can end, with the tokens that
decide it written out. The function and the relation agree (`reads_iff`), so what holds of every run is proved
by induction on the relation, and no proof opens the function again.
-/

namespace LineCalc

/-- The next token, if there is one, has no meaning for `f`. -/
def Lexeme.NoneNext (f : Token → Option α) (ls : List Lexeme) : Prop :=
  ∀ l ∈ ls.head?, f l.value = none

theorem ok_of_map {ε α β : Type} {f : α → β} {result : Except ε α} {b : β} (h : result.map f = .ok b) :
    ∃ a, result = .ok a ∧ f a = b := by
  cases result with
  | error _ => cases h
  | ok a =>
      cases h
      exact ⟨a, rfl, rfl⟩

theorem error_of_map {ε α β : Type} {f : α → β} {result : Except ε α} {e : ε} (h : result.map f = .error e) :
    result = .error e := by
  cases result with
  | ok _ => cases h
  | error _ =>
      cases h
      rfl

theorem Parser.ok_of_orExpected {p q : Parser} {classes : List TokenClass} {result : Except SyntaxError α} {a : α}
    (h : p.orExpected classes result q = .ok a) : result = .ok a := by
  cases result with
  | ok _ => exact h
  | error e =>
      simp only [orExpected] at h
      split at h <;> cases h

theorem Parser.error_of_orExpected {p q : Parser} {classes : List TokenClass} {result : Except SyntaxError α}
    {e : SyntaxError} (h : p.orExpected classes result q = .error e) : ∃ inner, result = .error inner := by
  cases result with
  | ok _ => cases h
  | error inner => exact ⟨inner, rfl⟩

namespace Token

@[simp] theorem is?_eq_some_iff {t u : Token} {a : Unit} : is? t u = some a ↔ u = t := by
  simp [is?]

@[simp] theorem number?_eq_some_iff {t : Token} {n : Num} : t.number? = some n ↔ t = .number n := by
  cases t <;> simp [number?]

@[simp] theorem identifier?_eq_some_iff {t : Token} {x : String} :
    t.identifier? = some x ↔ t = .identifier x := by
  cases t <;> simp [identifier?]

end Token

@[simp] theorem UnaryOp.negation?_eq_some_iff {t : Token} {op : UnaryOp} :
    negation? t = some op ↔ t = .keyword .not ∧ op = not := by
  unfold negation?
  split <;> simp_all [eq_comm]

@[simp] theorem BinaryOp.power?_eq_some_iff {t : Token} {op : BinaryOp} :
    power? t = some op ↔ t = .caret ∧ op = pow := by
  unfold power?
  split <;> simp_all [eq_comm]

namespace Parser

variable {p q : Parser} {f : Token → Option α}

theorem next?_of_cons {token : Token} {s : Span} {ls : List Lexeme} {a : α}
    (hrest : p.rest = ⟨token, s⟩ :: ls) (ha : f token = some a) :
    ∃ h, p.next? f = some (⟨a, s⟩, ⟨p.upTo ls, h⟩) := by
  obtain ⟨rest, stop, depth, limit⟩ := p
  cases hrest
  exact ⟨by simp, by simp [next?, ha]⟩

theorem next?_eq_none_iff : p.next? f = none ↔ Lexeme.NoneNext f p.rest := by
  obtain ⟨rest, stop, depth, limit⟩ := p
  cases rest with
  | nil => simp [next?, Lexeme.NoneNext]
  | cons l ls => simp [next?, Lexeme.NoneNext]

theorem cons_of_next? {x : Located α} {h : q.rest.length < p.rest.length}
    (hnext : p.next? f = some (x, ⟨q, h⟩)) :
    ∃ token ls, f token = some x.value ∧ p.rest = ⟨token, x.span⟩ :: ls ∧ q = p.upTo ls := by
  obtain ⟨rest, stop, depth, limit⟩ := p
  cases rest with
  | nil => simp [next?] at hnext
  | cons l ls =>
      simp only [next?, Option.map_eq_some_iff, Prod.mk.injEq] at hnext
      obtain ⟨a, ha, rfl, hq⟩ := hnext
      cases hq
      exact ⟨l.value, ls, ha, rfl, rfl⟩

theorem suffix_of_cons {l : Lexeme} {ls : List Lexeme} (hrest : p.rest = l :: ls) : ls <:+ p.rest := by
  rw [hrest]
  exact List.suffix_cons l ls

theorem next?_of_leftParen {s : Span} {ls : List Lexeme} (hrest : p.rest = ⟨.leftParen, s⟩ :: ls) :
    p.next? Token.number? = none ∧ p.next? Token.identifier? = none := by
  constructor <;>
    simp [next?_eq_none_iff, Lexeme.NoneNext, hrest, Token.number?, Token.identifier?]

end Parser

namespace Phrase

/-- Reading the phrase at the first parser can end with the result and the second parser. -/
inductive Reads : Phrase → Parser → Except SyntaxError Expr → Parser → Prop
  | tooDeep {r p} (hdepth : p.limit ≤ p.depth) : Reads (nested r) p p.tooDeep p
  | deeper {r p result q} (hdepth : p.depth < p.limit) (hbody : Reads (rule r) p.enter result q) :
      Reads (nested r) p result q.leave
  | noName {p s ls} (hrest : p.rest = ⟨.keyword .var, s⟩ :: ls) (hname : Lexeme.NoneNext Token.identifier? ls) :
      Reads (rule .expression) p ((p.upTo ls).refusal (.expected [.identifier])) (p.upTo ls)
  | noEqual {p s ls} {x : Located String}
      (hrest : p.rest = ⟨.keyword .var, s⟩ :: ⟨.identifier x.value, x.span⟩ :: ls)
      (hequal : Lexeme.NoneNext (Token.is? .equal) ls) :
      Reads (rule .expression) p ((p.upTo ls).refusal (.expected [.exactly .equal])) (p.upTo ls)
  | assign {p s t ls result q} {x : Located String}
      (hrest : p.rest = ⟨.keyword .var, s⟩ :: ⟨.identifier x.value, x.span⟩ :: ⟨.equal, t⟩ :: ls)
      (hvalue : Reads (nested .expression) (p.upTo ls) result q) :
      Reads (rule .expression) p (result.map (.assign x)) q
  | logic {p result q} (hvar : Lexeme.NoneNext (Token.is? (.keyword .var)) p.rest)
      (hlogic : Reads (rule (.repetition .logic)) p result q) :
      Reads (rule .expression) p (p.orExpected TokenClass.expressionStart result q) q
  | negation {p s ls result q} (hrest : p.rest = ⟨.keyword .not, s⟩ :: ls)
      (hoperand : Reads (nested .condition) (p.upTo ls) result q) :
      Reads (rule .condition) p (result.map (.unary ⟨.not, s⟩)) q
  | comparison {p result q} (hnot : Lexeme.NoneNext UnaryOp.negation? p.rest)
      (hcomparison : Reads (rule (.repetition .comparison)) p result q) :
      Reads (rule .condition) p (p.orExpected TokenClass.conditionStart result q) q
  | sign {p token s op ls result q} (hsign : UnaryOp.sign? token = some op) (hrest : p.rest = ⟨token, s⟩ :: ls)
      (hoperand : Reads (nested .factor) (p.upTo ls) result q) :
      Reads (rule .factor) p (result.map (.unary ⟨op, s⟩)) q
  | unsigned {p result q} (hsign : Lexeme.NoneNext UnaryOp.sign? p.rest)
      (hpower : Reads (rule .power) p result q) :
      Reads (rule .factor) p result q
  | noBase {p e q} (hbase : Reads (rule .atom) p (.error e) q) : Reads (rule .power) p (.error e) q
  | base {p base q} (hbase : Reads (rule .atom) p (.ok base) q)
      (hcaret : Lexeme.NoneNext BinaryOp.power? q.rest) :
      Reads (rule .power) p (.ok base) q
  | power {p base p₁ s ls result q} (hbase : Reads (rule .atom) p (.ok base) p₁)
      (hcaret : p₁.rest = ⟨.caret, s⟩ :: ls) (hexponent : Reads (nested .factor) (p₁.upTo ls) result q) :
      Reads (rule .power) p (result.map (.binary base ⟨.pow, s⟩)) q
  | number {p ls} {n : Located Num} (hrest : p.rest = ⟨.number n.value, n.span⟩ :: ls) :
      Reads (rule .atom) p (.ok (.number n)) (p.upTo ls)
  | name {p ls} {x : Located String} (hrest : p.rest = ⟨.identifier x.value, x.span⟩ :: ls) :
      Reads (rule .atom) p (.ok (.name x)) (p.upTo ls)
  | parens {p s ls e q t ms} (hrest : p.rest = ⟨.leftParen, s⟩ :: ls)
      (hinner : Reads (nested .expression) (p.upTo ls) (.ok e) q) (hclose : q.rest = ⟨.rightParen, t⟩ :: ms) :
      Reads (rule .atom) p (.ok e) (q.upTo ms)
  | unclosed {p s ls e q} (hrest : p.rest = ⟨.leftParen, s⟩ :: ls)
      (hinner : Reads (nested .expression) (p.upTo ls) (.ok e) q)
      (hclose : Lexeme.NoneNext (Token.is? .rightParen) q.rest) :
      Reads (rule .atom) p (q.refusal (.expected [.exactly .rightParen])) q
  | noInner {p s ls e q} (hrest : p.rest = ⟨.leftParen, s⟩ :: ls)
      (hinner : Reads (nested .expression) (p.upTo ls) (.error e) q) : Reads (rule .atom) p (.error e) q
  | noAtom {p} (hnumber : Lexeme.NoneNext Token.number? p.rest) (hname : Lexeme.NoneNext Token.identifier? p.rest)
      (hparen : Lexeme.NoneNext (Token.is? .leftParen) p.rest) :
      Reads (rule .atom) p (p.refusal (.expected TokenClass.operandStart)) p
  | noOperand {l p e q} (hoperand : Reads (rule l.operand) p (.error e) q) :
      Reads (rule (.repetition l)) p (.error e) q
  | repetition {l p left p₁ result q} (hoperand : Reads (rule l.operand) p (.ok left) p₁)
      (hfold : Reads (fold l left) p₁ result q) :
      Reads (rule (.repetition l)) p result { q with depth := p₁.depth }
  | foldEnd {l left p} (hoperator : Lexeme.NoneNext l.operator? p.rest) : Reads (fold l left) p (.ok left) p
  | foldTooDeep {l left p token op s ls} (hoperator : l.operator? token = some op)
      (hrest : p.rest = ⟨token, s⟩ :: ls) (hdepth : p.limit ≤ p.depth) :
      Reads (fold l left) p (p.upTo ls).tooDeep (p.upTo ls)
  | foldNoOperand {l left p token op s ls e q} (hoperator : l.operator? token = some op)
      (hrest : p.rest = ⟨token, s⟩ :: ls) (hdepth : p.depth < p.limit)
      (hoperand : Reads (rule l.operand) (p.upTo ls).enter (.error e) q) : Reads (fold l left) p (.error e) q
  | foldStep {l left p token op s ls right p₁ result q} (hoperator : l.operator? token = some op)
      (hrest : p.rest = ⟨token, s⟩ :: ls) (hdepth : p.depth < p.limit)
      (hoperand : Reads (rule l.operand) (p.upTo ls).enter (.ok right) p₁)
      (hfold : Reads (fold l (.binary left ⟨op, s⟩ right)) p₁ result q) : Reads (fold l left) p result q

theorem reads_read (phrase : Phrase) (p : Parser) :
    Reads phrase p (phrase.read p).result (phrase.read p).after := by
  fun_induction read phrase p with
  | case1 r p h => exact .tooDeep h
  | case2 p r h o ih => exact .deeper (by omega) ih
  | case3 p _ p₁ h₁ hvar x p₂ h₂ hname _ p₃ h₃ hequal ih =>
      obtain ⟨_, ls, ht, hrest, rfl⟩ := Parser.cons_of_next? hvar
      obtain ⟨_, ms, hx, hms, rfl⟩ := Parser.cons_of_next? hname
      obtain ⟨_, ns, hs, hns, rfl⟩ := Parser.cons_of_next? hequal
      simp only [Token.is?_eq_some_iff, Token.identifier?_eq_some_iff, Parser.upTo_rest] at ht hx hs hms hns
      subst ht hx hs hms hns
      exact .assign hrest ih
  | case4 p _ p₁ h₁ hvar x p₂ h₂ hname hequal =>
      obtain ⟨_, ls, ht, hrest, rfl⟩ := Parser.cons_of_next? hvar
      obtain ⟨_, ms, hx, hms, rfl⟩ := Parser.cons_of_next? hname
      simp only [Token.is?_eq_some_iff, Token.identifier?_eq_some_iff, Parser.upTo_rest] at ht hx hms
      subst ht hx hms
      exact .noEqual hrest (Parser.next?_eq_none_iff.mp hequal)
  | case5 p _ p₁ h₁ hvar hname =>
      obtain ⟨_, ls, ht, hrest, rfl⟩ := Parser.cons_of_next? hvar
      rw [Token.is?_eq_some_iff] at ht
      subst ht
      exact .noName hrest (Parser.next?_eq_none_iff.mp hname)
  | case6 p hvar ih => exact .logic (Parser.next?_eq_none_iff.mp hvar) ih
  | case7 p op p₁ h₁ hnot ih =>
      obtain ⟨_, ls, ht, hrest, rfl⟩ := Parser.cons_of_next? hnot
      obtain ⟨value, span⟩ := op
      rw [UnaryOp.negation?_eq_some_iff] at ht
      obtain ⟨rfl, rfl⟩ := ht
      exact .negation hrest ih
  | case8 p hnot ih => exact .comparison (Parser.next?_eq_none_iff.mp hnot) ih
  | case9 p op p₁ h₁ hsign ih =>
      obtain ⟨_, ls, ht, hrest, rfl⟩ := Parser.cons_of_next? hsign
      exact .sign ht hrest ih
  | case10 p hsign ih => exact .unsigned (Parser.next?_eq_none_iff.mp hsign) ih
  | case11 p base p₁ h₁ hatom op p₂ h₂ hcaret ihatom ih =>
      obtain ⟨_, ls, ht, hrest, rfl⟩ := Parser.cons_of_next? hcaret
      obtain ⟨value, span⟩ := op
      rw [BinaryOp.power?_eq_some_iff] at ht
      obtain ⟨rfl, rfl⟩ := ht
      rw [hatom] at ihatom
      exact .power ihatom hrest ih
  | case12 p base p₁ h₁ hatom hcaret ih =>
      rw [hatom] at ih
      exact .base ih (Parser.next?_eq_none_iff.mp hcaret)
  | case13 p e p₁ h₁ hatom ih =>
      rw [hatom] at ih
      exact .noBase ih
  | case14 p n p₁ h₁ hnumber =>
      obtain ⟨_, ls, ht, hrest, rfl⟩ := Parser.cons_of_next? hnumber
      rw [Token.number?_eq_some_iff] at ht
      subst ht
      exact .number hrest
  | case15 p x p₁ h₁ hname hnumber =>
      obtain ⟨_, ls, ht, hrest, rfl⟩ := Parser.cons_of_next? hname
      rw [Token.identifier?_eq_some_iff] at ht
      subst ht
      exact .name hrest
  | case16 p _ p₁ h₁ hparen hname hnumber e p₂ h₂ hinner _ p₃ h₃ hclose ih =>
      obtain ⟨_, ls, ht, hrest, rfl⟩ := Parser.cons_of_next? hparen
      obtain ⟨_, ms, hs, hms, rfl⟩ := Parser.cons_of_next? hclose
      rw [Token.is?_eq_some_iff] at ht hs
      subst ht hs
      rw [hinner] at ih
      exact .parens hrest ih hms
  | case17 p _ p₁ h₁ hparen hname hnumber e p₂ h₂ hinner hclose ih =>
      obtain ⟨_, ls, ht, hrest, rfl⟩ := Parser.cons_of_next? hparen
      rw [Token.is?_eq_some_iff] at ht
      subst ht
      rw [hinner] at ih
      exact .unclosed hrest ih (Parser.next?_eq_none_iff.mp hclose)
  | case18 p _ p₁ h₁ hparen hname hnumber e p₂ h₂ hinner ih =>
      obtain ⟨_, ls, ht, hrest, rfl⟩ := Parser.cons_of_next? hparen
      rw [Token.is?_eq_some_iff] at ht
      subst ht
      rw [hinner] at ih
      exact .noInner hrest ih
  | case19 p hparen hname hnumber =>
      exact .noAtom (Parser.next?_eq_none_iff.mp hnumber) (Parser.next?_eq_none_iff.mp hname)
        (Parser.next?_eq_none_iff.mp hparen)
  | case20 p l left p₁ h₁ hoperand ihoperand ih =>
      rw [hoperand] at ihoperand
      exact .repetition ihoperand ih
  | case21 p l e p₁ h₁ hoperand ih =>
      rw [hoperand] at ih
      exact .noOperand ih
  | case22 p l left op p₁ h₁ hoperator hdepth =>
      obtain ⟨_, ls, ht, hrest, rfl⟩ := Parser.cons_of_next? hoperator
      exact .foldTooDeep ht hrest hdepth
  | case23 p l left op p₁ h₁ hoperator hdepth right p₂ h₂ hoperand ihoperand ih =>
      obtain ⟨_, ls, ht, hrest, rfl⟩ := Parser.cons_of_next? hoperator
      rw [hoperand] at ihoperand
      exact .foldStep ht hrest (by simpa using hdepth) ihoperand ih
  | case24 p l left op p₁ h₁ hoperator hdepth e p₂ h₂ hoperand ih =>
      obtain ⟨_, ls, ht, hrest, rfl⟩ := Parser.cons_of_next? hoperator
      rw [hoperand] at ih
      exact .foldNoOperand ht hrest (by simpa using hdepth) ih
  | case25 p l left hoperator => exact .foldEnd (Parser.next?_eq_none_iff.mp hoperator)

theorem Reads.read_eq {phrase : Phrase} {p q : Parser} {result : Except SyntaxError Expr}
    (h : Reads phrase p result q) : ∃ hle, phrase.read p = ⟨result, q, hle⟩ := by
  induction h with
  | tooDeep hdepth => exact ⟨Nat.le_refl _, by rw [read, if_pos hdepth]⟩
  | deeper hdepth hbody ih =>
      obtain ⟨hle, heq⟩ := ih
      exact ⟨hle, by simp only [read, if_neg (Nat.not_le.mpr hdepth), heq]⟩
  | @noName p s ls hrest hname =>
      obtain ⟨h₁, hvar⟩ := Parser.next?_of_cons (f := Token.is? (.keyword .var)) hrest rfl
      have hnone : (p.upTo ls).next? Token.identifier? = none := Parser.next?_eq_none_iff.mpr hname
      exact ⟨Nat.le_of_lt h₁, by simp only [read, hvar, hnone]⟩
  | @noEqual p s ls x hrest hequal =>
      obtain ⟨h₁, hvar⟩ := Parser.next?_of_cons (f := Token.is? (.keyword .var)) hrest rfl
      obtain ⟨h₂, hx⟩ := Parser.next?_of_cons (f := Token.identifier?)
        (Parser.upTo_rest p (⟨.identifier x.value, x.span⟩ :: ls)) rfl
      have hnone : (p.upTo ls).next? (Token.is? .equal) = none := Parser.next?_eq_none_iff.mpr hequal
      exact ⟨by simp [hrest]; omega, by simp only [read, hvar, hx, Parser.upTo_upTo, hnone]⟩
  | @assign p s t ls result q x hrest hvalue ih =>
      obtain ⟨h₁, hvar⟩ := Parser.next?_of_cons (f := Token.is? (.keyword .var)) hrest rfl
      obtain ⟨h₂, hx⟩ := Parser.next?_of_cons (f := Token.identifier?)
        (Parser.upTo_rest p (⟨.identifier x.value, x.span⟩ :: ⟨.equal, t⟩ :: ls)) rfl
      obtain ⟨h₃, hequal⟩ := Parser.next?_of_cons (f := Token.is? .equal)
        (Parser.upTo_rest p (⟨.equal, t⟩ :: ls)) rfl
      obtain ⟨hle, heq⟩ := ih
      refine ⟨by simp [hrest] at hle ⊢; omega, ?_⟩
      simp only [read, hvar, hx, Parser.upTo_upTo, hequal, heq, Outcome.map, Outcome.since]
  | @logic p result q hvar hlogic ih =>
      obtain ⟨hle, heq⟩ := ih
      have hnone : p.next? (Token.is? (.keyword .var)) = none := Parser.next?_eq_none_iff.mpr hvar
      exact ⟨hle, by simp only [read, hnone, heq, Outcome.orExpected]⟩
  | @negation p s ls result q hrest hoperand ih =>
      obtain ⟨h₁, hnot⟩ := Parser.next?_of_cons (f := UnaryOp.negation?) hrest rfl
      obtain ⟨hle, heq⟩ := ih
      exact ⟨by simp [hrest] at hle ⊢; omega, by simp only [read, hnot, heq, Outcome.map, Outcome.since]⟩
  | @comparison p result q hnot hcomparison ih =>
      obtain ⟨hle, heq⟩ := ih
      have hnone : p.next? UnaryOp.negation? = none := Parser.next?_eq_none_iff.mpr hnot
      exact ⟨hle, by simp only [read, hnone, heq, Outcome.orExpected]⟩
  | sign hsign hrest hoperand ih =>
      obtain ⟨h₁, hnext⟩ := Parser.next?_of_cons hrest hsign
      obtain ⟨hle, heq⟩ := ih
      exact ⟨by simp [hrest] at hle ⊢; omega, by simp only [read, hnext, heq, Outcome.map, Outcome.since]⟩
  | @unsigned p result q hsign hpower ih =>
      obtain ⟨hle, heq⟩ := ih
      have hnone : p.next? UnaryOp.sign? = none := Parser.next?_eq_none_iff.mpr hsign
      exact ⟨hle, by simp only [read, hnone, heq]⟩
  | noBase hbase ih =>
      obtain ⟨hle, heq⟩ := ih
      exact ⟨hle, by simp only [read, heq]⟩
  | @base p base q hbase hcaret ih =>
      obtain ⟨hle, heq⟩ := ih
      have hnone : q.next? BinaryOp.power? = none := Parser.next?_eq_none_iff.mpr hcaret
      exact ⟨hle, by simp only [read, heq, hnone]⟩
  | power hbase hcaret hexponent ihbase ih =>
      obtain ⟨h₁, hnext⟩ := Parser.next?_of_cons (f := BinaryOp.power?) hcaret rfl
      obtain ⟨hlebase, heqbase⟩ := ihbase
      obtain ⟨hle, heq⟩ := ih
      refine ⟨by simp [hcaret] at hlebase hle ⊢; omega, ?_⟩
      simp only [read, heqbase, hnext, heq, Outcome.map, Outcome.since]
  | @number p ls n hrest =>
      obtain ⟨h₁, hnext⟩ := Parser.next?_of_cons (f := Token.number?) hrest rfl
      exact ⟨Nat.le_of_lt h₁, by simp only [read, hnext]⟩
  | @name p ls x hrest =>
      obtain ⟨h₁, hnext⟩ := Parser.next?_of_cons (f := Token.identifier?) hrest rfl
      have hnumber : p.next? Token.number? = none :=
        Parser.next?_eq_none_iff.mpr (by simp [Lexeme.NoneNext, hrest, Token.number?])
      exact ⟨Nat.le_of_lt h₁, by simp only [read, hnext, hnumber]⟩
  | @parens p s ls e q t ms hrest hinner hclose ih =>
      obtain ⟨h₁, hparen⟩ := Parser.next?_of_cons (f := Token.is? .leftParen) hrest rfl
      obtain ⟨hnumber, hname⟩ := Parser.next?_of_leftParen hrest
      obtain ⟨hle, heq⟩ := ih
      obtain ⟨h₂, hnext⟩ := Parser.next?_of_cons (f := Token.is? .rightParen) hclose rfl
      refine ⟨by simp [hrest, hclose] at hle ⊢; omega, ?_⟩
      simp only [read, hparen, hnumber, hname, heq, hnext]
  | @unclosed p s ls e q hrest hinner hclose ih =>
      obtain ⟨h₁, hparen⟩ := Parser.next?_of_cons (f := Token.is? .leftParen) hrest rfl
      obtain ⟨hnumber, hname⟩ := Parser.next?_of_leftParen hrest
      obtain ⟨hle, heq⟩ := ih
      have hnone : q.next? (Token.is? .rightParen) = none := Parser.next?_eq_none_iff.mpr hclose
      refine ⟨by simp [hrest] at hle ⊢; omega, ?_⟩
      simp only [read, hparen, hnumber, hname, heq, hnone]
  | @noInner p s ls e q hrest hinner ih =>
      obtain ⟨h₁, hparen⟩ := Parser.next?_of_cons (f := Token.is? .leftParen) hrest rfl
      obtain ⟨hnumber, hname⟩ := Parser.next?_of_leftParen hrest
      obtain ⟨hle, heq⟩ := ih
      refine ⟨by simp [hrest] at hle ⊢; omega, ?_⟩
      simp only [read, hparen, hnumber, hname, heq]
  | @noAtom p hnumber hname hparen =>
      have hnumber : p.next? Token.number? = none := Parser.next?_eq_none_iff.mpr hnumber
      have hname : p.next? Token.identifier? = none := Parser.next?_eq_none_iff.mpr hname
      have hparen : p.next? (Token.is? .leftParen) = none := Parser.next?_eq_none_iff.mpr hparen
      exact ⟨Nat.le_refl _, by simp only [read, hnumber, hname, hparen]⟩
  | noOperand hoperand ih =>
      obtain ⟨hle, heq⟩ := ih
      refine ⟨hle, ?_⟩
      rw [read]
      simp only [heq]
  | repetition hoperand hfold ihoperand ih =>
      obtain ⟨hleoperand, heqoperand⟩ := ihoperand
      obtain ⟨hle, heq⟩ := ih
      refine ⟨Nat.le_trans hle hleoperand, ?_⟩
      rw [read]
      simp only [heqoperand, heq, Outcome.atDepth, Outcome.since]
  | @foldEnd l left p hoperator =>
      have hnone : p.next? l.operator? = none := Parser.next?_eq_none_iff.mpr hoperator
      exact ⟨Nat.le_refl _, by simp only [read, hnone]⟩
  | @foldTooDeep l left p token op s ls hoperator hrest hdepth =>
      have hlimit : (p.upTo ls).limit ≤ (p.upTo ls).depth := hdepth
      obtain ⟨h₁, hnext⟩ := Parser.next?_of_cons hrest hoperator
      refine ⟨Nat.le_of_lt h₁, ?_⟩
      rw [read]
      simp only [hnext, if_pos hlimit]
  | @foldNoOperand l left p token op s ls e q hoperator hrest hdepth hoperand ih =>
      have hlimit : ¬(p.upTo ls).limit ≤ (p.upTo ls).depth := Nat.not_le.mpr hdepth
      obtain ⟨h₁, hnext⟩ := Parser.next?_of_cons hrest hoperator
      obtain ⟨hle, heq⟩ := ih
      refine ⟨by simp [hrest] at hle ⊢; omega, ?_⟩
      rw [read]
      simp only [hnext, if_neg hlimit, heq]
  | @foldStep l left p token op s ls right p₁ result q hoperator hrest hdepth hoperand hfold ihoperand ih =>
      have hlimit : ¬(p.upTo ls).limit ≤ (p.upTo ls).depth := Nat.not_le.mpr hdepth
      obtain ⟨h₁, hnext⟩ := Parser.next?_of_cons hrest hoperator
      obtain ⟨hleoperand, heqoperand⟩ := ihoperand
      obtain ⟨hle, heq⟩ := ih
      refine ⟨by simp [hrest] at hleoperand hle ⊢; omega, ?_⟩
      rw [read]
      simp only [hnext, if_neg hlimit, heqoperand, heq, Outcome.since]

theorem reads_iff {phrase : Phrase} {p q : Parser} {result : Except SyntaxError Expr} :
    Reads phrase p result q ↔ (phrase.read p).result = result ∧ (phrase.read p).after = q := by
  constructor
  · intro h
    obtain ⟨hle, heq⟩ := h.read_eq
    rw [heq]
    exact ⟨rfl, rfl⟩
  · rintro ⟨rfl, rfl⟩
    exact reads_read phrase p

/-! ### What every run keeps -/

namespace Reads

variable {phrase : Phrase} {p q : Parser} {result : Except SyntaxError Expr}

theorem limit_eq (h : Reads phrase p result q) : q.limit = p.limit := by
  induction h with
  | deeper _ _ ih => exact ih
  | _ => simp_all

theorem stop_eq (h : Reads phrase p result q) : q.stop = p.stop := by
  induction h with
  | deeper _ _ ih => exact ih
  | _ => simp_all

/-- A run reads lexemes from the front and never gives one back, whatever comes of it. -/
theorem suffix (h : Reads phrase p result q) : q.rest <:+ p.rest := by
  induction h with
  | tooDeep | noAtom | foldEnd => exact List.suffix_rfl
  | deeper _ _ ih | logic _ _ ih | comparison _ _ ih | unsigned _ _ ih | noBase _ ih | base _ _ ih
  | noOperand _ ih => exact ih
  | noName hrest _ | number hrest | name hrest | foldTooDeep _ hrest _ => exact Parser.suffix_of_cons hrest
  | noEqual hrest _ => exact (List.suffix_cons _ _).trans (Parser.suffix_of_cons hrest)
  | assign hrest _ ih =>
      exact ih.trans (((List.suffix_cons _ _).trans (List.suffix_cons _ _)).trans (Parser.suffix_of_cons hrest))
  | negation hrest _ ih | sign _ hrest _ ih | unclosed hrest _ _ ih | noInner hrest _ ih
  | foldNoOperand _ hrest _ _ ih => exact ih.trans (Parser.suffix_of_cons hrest)
  | power _ hcaret _ ihbase ih => exact (ih.trans (Parser.suffix_of_cons hcaret)).trans ihbase
  | parens hrest _ hclose ih =>
      exact ((Parser.suffix_of_cons hclose).trans ih).trans (Parser.suffix_of_cons hrest)
  | repetition _ _ ihoperand ih => exact ih.trans ihoperand
  | foldStep _ hrest _ _ _ ihoperand ih => exact (ih.trans ihoperand).trans (Parser.suffix_of_cons hrest)

/-- Only the steps of a repetition go deeper without coming back, and the repetition does so at its end. -/
theorem depth_eq : Reads phrase p result q →
    match phrase with
    | fold _ _ => p.depth ≤ q.depth
    | _ => q.depth = p.depth := by
  intro h
  induction h with
  | deeper _ _ ih => simp_all
  | foldStep _ _ _ _ _ ihoperand ih =>
      simp only [Parser.enter_depth, Parser.upTo_depth] at ihoperand ih ⊢
      omega
  | _ => simp_all

/-- A refusal is located where the run stopped reading. A refusal that replaces another one is located where
the attempt began, which is the same place when nothing has been read. -/
theorem located {e : SyntaxError} (h : Reads phrase p result q) (he : result = .error e) :
    e.span = q.here := by
  induction h with
  | tooDeep | noName | noEqual | unclosed | noAtom | foldTooDeep =>
      cases he
      rfl
  | deeper _ _ ih | unsigned _ _ ih | noBase _ ih | noInner _ _ ih | noOperand _ ih | foldNoOperand _ _ _ _ ih
  | repetition _ _ _ ih | foldStep _ _ _ _ _ _ ih => exact ih he
  | assign _ _ ih | negation _ _ ih | sign _ _ _ ih | power _ _ _ _ ih => exact ih (error_of_map he)
  | @logic p result q _ hrun ih | @comparison p result q _ hrun ih =>
      cases result with
      | ok _ => cases he
      | error _ =>
          simp only [Parser.orExpected] at he
          split at he
          · next hlength =>
            have hrest : q.rest = p.rest := hrun.suffix.eq_of_length hlength
            cases he
            simp only [Parser.here, hrest, hrun.stop_eq]
          · exact ih he
  | base | number | name | parens | foldEnd => cases he

end Reads
end Phrase
end LineCalc
