import LineCalc.Grammar

/-!
The grammar as a relation: `r.Derives ls e` says that the lexemes `ls` spell the expression `e` by the rule
`r`. The repetitions are left-recursive, so their operations group to the left; parentheses leave no trace in
the expression. The relation says nothing about how lexemes are read, and knows the operators only through the
lists below.

The strength of an operator says how tightly it binds. A phrase of a rule can be continued by the operators of
the rule's strength and more, and by no others.
-/

namespace LineCalc

/-- The lexemes that the expression keeps, from left to right. -/
def Expr.lexemes : Expr → List Lexeme
  | number n => [⟨.number n.value, n.span⟩]
  | name x => [⟨.identifier x.value, x.span⟩]
  | assign x value => ⟨.identifier x.value, x.span⟩ :: value.lexemes
  | unary op operand => ⟨op.value.token, op.span⟩ :: operand.lexemes
  | binary left op right => left.lexemes ++ ⟨op.value.token, op.span⟩ :: right.lexemes

/-- How tightly an operator binds. -/
def BinaryOp.strength : BinaryOp → Nat
  | .or | .and => 0
  | .equal | .notEqual | .less | .greater | .lessEqual | .greaterEqual => 1
  | .add | .sub => 2
  | .mul | .div => 3
  | .pow => 4

theorem BinaryOp.token_injective {a b : BinaryOp} (h : a.token = b.token) : a = b := by
  cases a <;> cases b <;> first | rfl | cases h

/-- The operators that can stand before a factor. -/
def UnaryOp.signs : List UnaryOp := [plus, minus]

theorem UnaryOp.sign?_eq_some_iff {t : Token} {op : UnaryOp} :
    sign? t = some op ↔ op ∈ signs ∧ t = op.token := by
  cases t <;> cases op <;> simp [sign?, signs, token]

namespace Level

def strength : Level → Nat
  | logic => 0
  | comparison => 1
  | sum => 2
  | product => 3

/-- The operators of a repetition. -/
def operators : Level → List BinaryOp
  | logic => [.and, .or]
  | comparison => [.equal, .notEqual, .less, .greater, .lessEqual, .greaterEqual]
  | sum => [.add, .sub]
  | product => [.mul, .div]

theorem operator?_eq_some_iff {l : Level} {t : Token} {op : BinaryOp} :
    l.operator? t = some op ↔ op ∈ l.operators ∧ t = op.token := by
  constructor
  · intro h
    unfold operator? at h
    split at h <;> cases h <;> exact ⟨by decide, rfl⟩
  · rintro ⟨hmem, rfl⟩
    cases l <;> cases op <;> first | rfl | exact absurd hmem (by decide)

theorem mem_operators_iff {l : Level} {op : BinaryOp} : op ∈ l.operators ↔ op.strength = l.strength := by
  cases l <;> cases op <;> simp [operators, strength, BinaryOp.strength]

end Level

namespace Rule

/-- The strength of the operators that can continue a phrase of the rule, and of all tighter ones. -/
def strength : Rule → Nat
  | expression => 0
  | condition => 1
  | factor => 4
  | power => 4
  | atom => 5
  | repetition l => l.strength

theorem strength_operand (l : Level) : l.operand.strength = l.strength + 1 := by
  cases l <;> rfl

/-- The lexemes spell the expression by the rule. -/
inductive Derives : Rule → List Lexeme → Expr → Prop
  | assign {s x t ls e} (hvalue : Derives expression ls e) :
      Derives expression (⟨.keyword .var, s⟩ :: ⟨.identifier x.value, x.span⟩ :: ⟨.equal, t⟩ :: ls) (.assign x e)
  | logic {ls e} (hlogic : Derives (repetition .logic) ls e) : Derives expression ls e
  | negation {s ls e} (hoperand : Derives condition ls e) :
      Derives condition (⟨.keyword .not, s⟩ :: ls) (.unary ⟨.not, s⟩ e)
  | comparison {ls e} (hcomparison : Derives (repetition .comparison) ls e) : Derives condition ls e
  | sign {op s ls e} (hsign : op ∈ UnaryOp.signs) (hoperand : Derives factor ls e) :
      Derives factor (⟨op.token, s⟩ :: ls) (.unary ⟨op, s⟩ e)
  | unsigned {ls e} (hpower : Derives power ls e) : Derives factor ls e
  | base {ls e} (hbase : Derives atom ls e) : Derives power ls e
  | power {ls base s ms exponent} (hbase : Derives atom ls base) (hexponent : Derives factor ms exponent) :
      Derives power (ls ++ ⟨.caret, s⟩ :: ms) (.binary base ⟨.pow, s⟩ exponent)
  | number {n : Located Num} : Derives atom [⟨.number n.value, n.span⟩] (.number n)
  | name {x : Located String} : Derives atom [⟨.identifier x.value, x.span⟩] (.name x)
  | parens {s ls e t} (hinner : Derives expression ls e) :
      Derives atom (⟨.leftParen, s⟩ :: (ls ++ [⟨.rightParen, t⟩])) e
  | operand {l ls e} (hoperand : Derives l.operand ls e) : Derives (repetition l) ls e
  | operation {l op ls left s ms right} (hoperator : op ∈ l.operators) (hleft : Derives (repetition l) ls left)
      (hright : Derives l.operand ms right) :
      Derives (repetition l) (ls ++ ⟨op.token, s⟩ :: ms) (.binary left ⟨op, s⟩ right)

/-- What a phrase of the rule can start with. -/
def starters : Rule → List TokenClass
  | expression => TokenClass.expressionStart
  | condition | repetition .logic => TokenClass.conditionStart
  | factor | repetition _ => TokenClass.operandStart
  | power | atom => [.int, .float, .identifier, .exactly .leftParen]

/-- Whether a phrase of the rule can start with the token. -/
def startsWith (r : Rule) (t : Token) : Bool := r.starters.any (·.holds t)

theorem startsWith_of_subset {r r' : Rule} {t : Token} (hsub : r.starters ⊆ r'.starters) (h : r.startsWith t) :
    r'.startsWith t := by
  obtain ⟨c, hc, hholds⟩ := List.any_eq_true.mp h
  exact List.any_eq_true.mpr ⟨c, hsub hc, hholds⟩

theorem startsWith_number (n : Num) : atom.startsWith (.number n) := by
  cases n <;> rfl

theorem startsWith_sign {op : UnaryOp} (h : op ∈ UnaryOp.signs) : factor.startsWith op.token := by
  cases op with
  | not => simp [UnaryOp.signs] at h
  | _ => decide

/-- No phrase is empty, and its first token is among the starters of its rule. -/
theorem Derives.first {r : Rule} {ls : List Lexeme} {e : Expr} (h : r.Derives ls e) :
    ∃ l ms, ls = l :: ms ∧ r.startsWith l.value := by
  induction h with
  | assign | negation | parens | name => exact ⟨_, _, rfl, rfl⟩
  | number => exact ⟨_, _, rfl, startsWith_number _⟩
  | sign hsign => exact ⟨_, _, rfl, startsWith_sign hsign⟩
  | logic _ ih | comparison _ ih | unsigned _ ih | base _ ih =>
      obtain ⟨l, ms, rfl, hl⟩ := ih
      exact ⟨l, ms, rfl, startsWith_of_subset (by decide) hl⟩
  | @operand l _ _ _ ih =>
      obtain ⟨t, ms, rfl, ht⟩ := ih
      exact ⟨t, ms, rfl, startsWith_of_subset (by cases l <;> decide) ht⟩
  | power _ _ ih _ | operation _ _ _ ih _ =>
      obtain ⟨l, ms, rfl, hl⟩ := ih
      exact ⟨l, ms ++ _, rfl, hl⟩

theorem Derives.value_ne_eof {r : Rule} {ls : List Lexeme} {e : Expr} (h : r.Derives ls e) :
    ∀ l ∈ ls, l.value ≠ .eof := by
  induction h with
  | logic _ ih | comparison _ ih | unsigned _ ih | base _ ih | operand _ ih => exact ih
  | @sign op => cases op <;> simp_all [UnaryOp.token]
  | @operation _ op => cases op <;> simp_all [BinaryOp.token] <;> grind
  | _ => simp_all <;> grind

/-- An expression keeps its numbers, names and operators, in the order in which they were written. -/
theorem Derives.lexemes_sublist {r : Rule} {ls : List Lexeme} {e : Expr} (h : r.Derives ls e) :
    e.lexemes.Sublist ls := by
  induction h with
  | logic _ ih | comparison _ ih | unsigned _ ih | base _ ih | operand _ ih => exact ih
  | number | name => exact .refl _
  | assign _ ih => exact .cons _ (.cons_cons _ (.cons _ ih))
  | negation _ ih | sign _ _ ih => exact .cons_cons _ ih
  | parens _ ih => exact .cons _ (ih.trans (List.sublist_append_left _ _))
  | power _ _ ihleft ih | operation _ _ _ ihleft ih => exact ihleft.append (.cons_cons _ ih)

theorem Derives.length_pos {r : Rule} {ls : List Lexeme} {e : Expr} (h : r.Derives ls e) : 0 < ls.length := by
  obtain ⟨l, ms, rfl, _⟩ := h.first
  exact Nat.succ_pos _

theorem derives_repetition_of_factor {ls : List Lexeme} {e : Expr} (h : factor.Derives ls e) :
    ∀ l, (repetition l).Derives ls e := by
  have hproduct := Derives.operand (l := .product) h
  have hsum := Derives.operand (l := .sum) hproduct
  have hcomparison := Derives.operand (l := .comparison) hsum
  intro l
  cases l with
  | logic => exact .operand (.comparison hcomparison)
  | comparison => exact hcomparison
  | sum => exact hsum
  | product => exact hproduct

/-- A factor is a phrase of every rule but those of its own parts. -/
theorem Derives.of_factor {ls : List Lexeme} {e : Expr} (h : factor.Derives ls e) (r : Rule) (hpower : r ≠ .power)
    (hatom : r ≠ .atom) : r.Derives ls e := by
  cases r with
  | expression => exact .logic (derives_repetition_of_factor h .logic)
  | condition => exact .comparison (derives_repetition_of_factor h .comparison)
  | factor => exact h
  | power => exact absurd rfl hpower
  | atom => exact absurd rfl hatom
  | repetition l => exact derives_repetition_of_factor h l

/-- An atom is a phrase of every rule. -/
theorem Derives.of_atom {ls : List Lexeme} {e : Expr} (h : atom.Derives ls e) (r : Rule) : r.Derives ls e := by
  cases r with
  | power => exact .base h
  | atom => exact h
  | expression | condition | factor | repetition =>
      have hfactor := Derives.unsigned (.base h)
      exact hfactor.of_factor _ nofun nofun

end Rule

/-- The next lexeme, if there is one, is no operator of the given strength or more. -/
def Lexeme.StopsBelow (strength : Nat) (ls : List Lexeme) : Prop :=
  ∀ l ∈ ls.head?, ∀ op : BinaryOp, l.value = op.token → op.strength < strength

/-- The next lexeme, if there is one, is no operator. -/
def Lexeme.NoOperatorNext (ls : List Lexeme) : Prop := ∀ l ∈ ls.head?, ∀ op : BinaryOp, l.value ≠ op.token

end LineCalc
