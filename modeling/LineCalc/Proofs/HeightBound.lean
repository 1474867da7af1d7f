import LineCalc.Proofs.GrammarAcceptance
import Mathlib.Tactic.Ring

/-!
How high the expressions are that a limit on the depth lets through. The limit does not bound the height: each of
the four repetitions can use up all levels that are left, on top of the one before it, and so can the base of a
power. With `m` levels left, the highest expression is a chain of `4 * m` operations on top of a power whose base
stands in parentheses and has one level less (`Expr.tallest`). No expression is higher (`Reads.allowsHeight`), and
this one is read (`Reads.tower`).
-/

namespace LineCalc

/-- How many nodes lie on the longest way from the root to a leaf. -/
def Expr.height : Expr → Nat
  | number _ => 1
  | name _ => 1
  | assign _ value => value.height + 1
  | unary _ operand => operand.height + 1
  | binary left _ right => max left.height right.height + 1

theorem Expr.height_pos (e : Expr) : 0 < e.height := by
  cases e <;> exact Nat.succ_pos _

/-- The greatest height of an expression within which `m` levels are left. -/
def Expr.tallest : Nat → Nat
  | 0 => 1
  | m + 1 => tallest m + 1 + 4 * (m + 1)

theorem Expr.tallest_eq (m : Nat) : tallest m = 2 * (m + 1) ^ 2 - (m + 1) := by
  have hsum : tallest m + (m + 1) = 2 * (m + 1) ^ 2 := by
    induction m with
    | zero => rfl
    | succ m ih =>
        have hsquare : 2 * (m + 1 + 1) ^ 2 = 2 * (m + 1) ^ 2 + 4 * (m + 1) + 2 := by ring
        rw [tallest]
        omega
  omega

namespace Rule

/-- The greatest height of a phrase of the rule within which `m` levels are left. Without a level left there is
no operation; parentheses take a level, and the base of a power none. -/
def tallest : Rule → Nat → Nat
  | atom, 0 => 1
  | atom, m + 1 => Expr.tallest m
  | _, 0 => 1
  | r, m + 1 => Expr.tallest m + 1 + (4 - r.strength) * (m + 1)

variable {m n : Nat}

theorem tallest_expression (m : Nat) : expression.tallest m = Expr.tallest m := by
  cases m <;> rfl

theorem tallest_repetition (l : Level) (m : Nat) : (repetition l).tallest m = l.operand.tallest m + m := by
  cases m with
  | zero => cases l <;> rfl
  | succ m => cases l <;> simp only [tallest, Level.operand, strength, Level.strength] <;> omega

theorem tallest_pos (r : Rule) (m : Nat) : 0 < r.tallest m := by
  have hpos : ∀ m, 0 < Expr.tallest m := by
    intro m
    cases m <;> simp [Expr.tallest]
  cases m with
  | zero => cases r <;> simp [tallest]
  | succ m => cases r <;> simp [tallest, hpos]

theorem tallest_lt_succ {r : Rule} (hr : r ≠ atom) (m : Nat) : r.tallest m < r.tallest (m + 1) := by
  cases r with
  | atom => exact absurd rfl hr
  | repetition l =>
      cases m <;> cases l <;> simp only [tallest, Expr.tallest, strength, Level.strength] <;> omega
  | _ => cases m <;> simp only [tallest, Expr.tallest, strength] <;> omega

theorem tallest_congr {r r' : Rule} (hr : r ≠ atom) (hr' : r' ≠ atom) (hstrength : r.strength = r'.strength) (m : Nat) :
    r.tallest m = r'.tallest m := by
  cases m <;> cases r <;> cases r' <;> simp_all [tallest]

theorem operand_ne_atom (l : Level) : l.operand ≠ atom := by
  cases l <;> decide

/-- An atom with a level left is an expression in parentheses, with one level less. -/
theorem tallest_expression_eq (m : Nat) : expression.tallest m = atom.tallest (m + 1) := tallest_expression m

theorem tallest_atom_le (m : Nat) : atom.tallest m ≤ power.tallest m := by
  cases m <;> simp only [tallest, strength] <;> omega

theorem tallest_power_succ (m : Nat) : power.tallest (m + 1) = atom.tallest (m + 1) + 1 := by
  simp [tallest, strength]

/-- The exponent of a power has one level less than its base, and what it may have is less by far. -/
theorem tallest_factor_le (m : Nat) : factor.tallest m ≤ atom.tallest (m + 1) := by
  cases m <;> simp only [tallest, Expr.tallest, strength] <;> omega

end Rule

/-! ### No expression is higher -/

/-- How many levels are left. -/
def Parser.levels (p : Parser) : Nat := p.limit - p.depth

open Phrase Rule

/-- The heights that a phrase may have within which `m` levels are left. What has been folded up to now goes down
by one level for each step to come. -/
def Phrase.AllowsHeight : Phrase → Nat → Nat → Prop
  | rule r, m, height => height ≤ r.tallest m
  | nested r, m, height => ∃ n, m = n + 1 ∧ height ≤ r.tallest n
  | fold l left, m, height => height ≤ max left.height (l.operand.tallest m) + m

theorem Phrase.Reads.levels_eq {r : Rule} {p q : Parser} {result : Except SyntaxError Expr}
    (h : Reads (rule r) p result q) : q.levels = p.levels := by
  have hdepth : q.depth = p.depth := h.depth_eq
  rw [Parser.levels, Parser.levels, h.limit_eq, hdepth]

theorem Phrase.AllowsHeight.succ {r : Rule} {m height : Nat} (hr : r ≠ atom) (h : (nested r).AllowsHeight m height) :
    (rule r).AllowsHeight m (height + 1) := by
  obtain ⟨n, rfl, hheight⟩ := h
  exact Nat.lt_of_le_of_lt hheight (tallest_lt_succ hr n)

/-- A rule that hands on the phrases of another one allows the same heights. -/
theorem Phrase.AllowsHeight.congr {r r' : Rule} {m height : Nat} (h : (rule r).AllowsHeight m height) (hr : r ≠ atom)
    (hr' : r' ≠ atom) (hstrength : r.strength = r'.strength) : (rule r').AllowsHeight m height := by
  rw [Phrase.AllowsHeight] at h ⊢
  rwa [← tallest_congr hr hr' hstrength]

theorem Phrase.Reads.allowsHeight {phrase : Phrase} {p q : Parser} {result : Except SyntaxError Expr} {e : Expr}
    (h : Reads phrase p result q) (he : result = .ok e) : phrase.AllowsHeight p.levels e.height := by
  induction h generalizing e with
  | tooDeep | noName | noEqual | noBase | unclosed | noInner | noAtom | noOperand => cases he
  | foldTooDeep | foldNoOperand => cases he
  | @deeper r p _ _ hdepth _ ih => exact ⟨p.enter.levels, by simp [Parser.levels]; omega, ih he⟩
  | assign _ _ ih =>
      obtain ⟨value, rfl, rfl⟩ := ok_of_map he
      exact AllowsHeight.succ (by decide) (ih rfl)
  | negation _ _ ih =>
      obtain ⟨operand, rfl, rfl⟩ := ok_of_map he
      exact AllowsHeight.succ (by decide) (ih rfl)
  | sign _ _ _ ih =>
      obtain ⟨operand, rfl, rfl⟩ := ok_of_map he
      exact AllowsHeight.succ (by decide) (ih rfl)
  | logic _ _ ih | comparison _ _ ih =>
      exact AllowsHeight.congr (ih (Parser.ok_of_orExpected he)) (by decide) (by decide) rfl
  | unsigned _ _ ih => exact AllowsHeight.congr (ih he) (by decide) (by decide) rfl
  | base _ _ ih => exact Nat.le_trans (ih he) (tallest_atom_le _)
  | @power p base p₁ s ls result q hbase _ _ ihbase ih =>
      obtain ⟨exponent, rfl, rfl⟩ := ok_of_map he
      obtain ⟨n, hn, hexponent⟩ := ih rfl
      have hlevels : p.levels = n + 1 := hbase.levels_eq.symm.trans hn
      have hbase' : base.height ≤ atom.tallest p.levels := ihbase rfl
      rw [hlevels] at hbase' ⊢
      have hmax := Nat.succ_le_succ (Nat.max_le.mpr ⟨hbase', hexponent.trans (tallest_factor_le n)⟩)
      exact hmax.trans_eq (tallest_power_succ n).symm
  | number | name =>
      cases he
      exact tallest_pos _ _
  | @parens p s ls e q t ms _ _ _ ih =>
      cases he
      obtain ⟨n, hn, hinner⟩ := ih rfl
      have hlevels : p.levels = n + 1 := hn
      rw [hlevels]
      exact hinner.trans_eq (tallest_expression_eq n)
  | @repetition l p left p₁ result q hoperand hfold ihoperand ih =>
      have hleft : left.height ≤ l.operand.tallest p.levels := ihoperand rfl
      have hall : e.height ≤ max left.height (l.operand.tallest p₁.levels) + p₁.levels := ih he
      rw [hoperand.levels_eq, Nat.max_eq_right hleft] at hall
      exact hall.trans_eq (tallest_repetition l _).symm
  | foldEnd =>
      cases he
      exact Nat.le_trans (Nat.le_max_left _ _) (Nat.le_add_right _ _)
  | @foldStep l left p token op s ls right p₁ result q _ _ hdepth hoperand _ ihoperand ih =>
      -- the step keeps one of the levels, so its right operand and all further steps have one less
      obtain ⟨n, hn⟩ : ∃ n, p.levels = n + 1 := ⟨p.levels - 1, by simp only [Parser.levels]; omega⟩
      have hn₁ : p₁.levels = n := by
        rw [hoperand.levels_eq]
        simp only [Parser.levels, Parser.enter_limit, Parser.enter_depth, Parser.upTo_limit, Parser.upTo_depth] at hn ⊢
        omega
      have hright : right.height ≤ l.operand.tallest n := by
        rw [← hn₁, hoperand.levels_eq]
        exact ihoperand rfl
      have hall : e.height ≤ max (max left.height right.height + 1) (l.operand.tallest p₁.levels) + p₁.levels := ih he
      have hmono := tallest_lt_succ (operand_ne_atom l) n
      rw [hn₁] at hall
      rw [hn]
      show e.height ≤ max left.height (l.operand.tallest (n + 1)) + (n + 1)
      omega

/-! ### The highest expression is read -/

/-- The operator of a repetition that is used below. -/
def Level.sample : Level → BinaryOp
  | logic => .and
  | comparison => .equal
  | sum => .add
  | product => .mul

/-- The expression `1` at no place of a text, of which the operands are copies. -/
def Expr.one : Expr := .number ⟨.int 1, {}⟩

/-- The lexemes of `n` steps of a repetition. -/
def Level.steps (l : Level) : Nat → List Lexeme
  | 0 => []
  | n + 1 => ⟨l.sample.token, {}⟩ :: ⟨.number (.int 1), {}⟩ :: l.steps n

/-- What `n` steps of a repetition make of its first operand. -/
def Level.chain (l : Level) : Nat → Expr → Expr
  | 0, left => left
  | n + 1, left => l.chain n (.binary left ⟨l.sample, {}⟩ .one)

/-- The lexemes of the highest expression for which `m` levels are needed. -/
def Lexeme.tower : Nat → List Lexeme
  | 0 => [⟨.number (.int 1), {}⟩]
  | m + 1 =>
    ⟨.leftParen, {}⟩ :: (tower m ++ ⟨.rightParen, {}⟩ :: ⟨.caret, {}⟩ :: ⟨.number (.int 1), {}⟩ ::
      (Level.product.steps (m + 1) ++ (Level.sum.steps (m + 1) ++
        (Level.comparison.steps (m + 1) ++ Level.logic.steps (m + 1)))))

def Expr.tower : Nat → Expr
  | 0 => one
  | m + 1 => Level.logic.chain (m + 1) (Level.comparison.chain (m + 1) (Level.sum.chain (m + 1)
      (Level.product.chain (m + 1) (.binary (tower m) ⟨.pow, {}⟩ one))))

theorem Level.height_chain (l : Level) (n : Nat) (left : Expr) : (l.chain n left).height = left.height + n := by
  induction n generalizing left with
  | zero => rfl
  | succ n ih =>
      have hpos := left.height_pos
      have hone : Expr.one.height = 1 := rfl
      rw [chain, ih, Expr.height, hone]
      omega

theorem Expr.height_tower (m : Nat) : (tower m).height = tallest m := by
  induction m with
  | zero => rfl
  | succ m ih =>
      have hpos := (tower m).height_pos
      have hone : one.height = 1 := rfl
      simp only [tower, Level.height_chain, height, tallest, ih, hone] at hpos ⊢
      omega

open Lexeme

variable {l : Level} {left : Expr} {p p₁ : Parser} {n : Nat} {rest : List Lexeme}

/-- A step of a repetition is the end of all tighter ones. -/
theorem Lexeme.stopsBelow_steps {strength : Nat} (hstrength : l.strength < strength) (n : Nat) (rest : List Lexeme) :
    StopsBelow strength (l.steps (n + 1) ++ rest) := by
  intro t ht op htoken
  cases ht
  rw [← BinaryOp.token_injective htoken]
  cases l <;> exact hstrength

theorem Lexeme.noneNext_of_cons {f : Token → Option α} {t : Token} {s : Span} {ls ms : List Lexeme}
    (h : ls = ⟨t, s⟩ :: ms) (hf : f t = none) : NoneNext f ls := by
  subst h
  rintro _ ⟨⟩
  exact hf

theorem Level.sample_mem (l : Level) : l.sample ∈ l.operators := by
  cases l <;> decide

theorem Rule.derives_one (r : Rule) : r.Derives [⟨.number (.int 1), {}⟩] .one :=
  .of_atom (.number (n := ⟨.int 1, {}⟩)) r

/-- As many steps of a repetition are read as there are levels left. -/
theorem Phrase.Reads.fold_steps (left : Expr) (hrest : p.rest = l.steps n ++ rest) (hdepth : p.depth + n ≤ p.limit)
    (hstop : StopsBelow l.strength rest) :
    Reads (fold l left) p (.ok (l.chain n left)) { p.upTo rest with depth := p.depth + n } := by
  induction n generalizing left p with
  | zero =>
      obtain rfl : p.rest = rest := hrest
      exact .foldEnd hstop.noneNext
  | succ n ih =>
      have htoken := Level.operator?_eq_some_iff.mpr ⟨l.sample_mem, rfl⟩
      have hnext : StopsBelow l.operand.strength (l.steps n ++ rest) := by
        rw [Rule.strength_operand]
        cases n with
        | zero => exact hstop.mono (Nat.le_succ _)
        | succ n => exact stopsBelow_steps (Nat.lt_succ_self _) n rest
      have hone := (Rule.derives_one l.operand).completes.readsAll
        (p.upTo (⟨.number (.int 1), {}⟩ :: (l.steps n ++ rest))).enter (l.steps n ++ rest) rfl hnext
      have hmore := ih (.binary left ⟨l.sample, {}⟩ .one) (p := (p.upTo (l.steps n ++ rest)).enter) rfl
      simp only [Parser.enter_depth, Parser.enter_limit, Parser.upTo_depth, Parser.upTo_limit] at hone hmore
      have hall := Reads.foldStep (s := {}) htoken hrest (by omega) (hone (by simp; omega)) (hmore (by omega))
      rwa [Nat.add_assoc, Nat.add_comm 1 n] at hall

theorem Phrase.Reads.repetition_steps (hoperand : Reads (rule l.operand) p (.ok left) p₁)
    (hrest : p₁.rest = l.steps n ++ rest) (hdepth : p₁.depth + n ≤ p₁.limit) (hstop : StopsBelow l.strength rest) :
    Reads (rule (.repetition l)) p (.ok (l.chain n left)) (p₁.upTo rest) :=
  .repetition hoperand (fold_steps left hrest hdepth hstop)

theorem Phrase.Reads.tower (m : Nat) (hrest : p.rest = Lexeme.tower m ++ rest) (hdepth : p.depth + m < p.limit)
    (hstop : NoOperatorNext rest) : Reads (nested .expression) p (.ok (Expr.tower m)) (p.upTo rest) := by
  induction m generalizing p rest with
  | zero =>
      have hone := Parser.expression_of_derives hrest (Rule.derives_one .expression) hstop
        (by simp [Lexeme.tower]; omega)
      exact Parser.expression_eq_iff.mp hone
  | succ m ih =>
      let afterComparison := Level.logic.steps (m + 1) ++ rest
      let afterSum := Level.comparison.steps (m + 1) ++ afterComparison
      let afterProduct := Level.sum.steps (m + 1) ++ afterSum
      let afterPower := Level.product.steps (m + 1) ++ afterProduct
      let exponent : List Lexeme := ⟨.number (.int 1), {}⟩ :: afterPower
      have hparen : p.rest = ⟨.leftParen, {}⟩ :: (Lexeme.tower m ++ ⟨.rightParen, {}⟩ :: ⟨.caret, {}⟩ :: exponent) := by
        rw [hrest]
        simp [Lexeme.tower, exponent, afterPower, afterProduct, afterSum, afterComparison]
      have hinner := ih (p := p.enter.upTo (Lexeme.tower m ++ ⟨.rightParen, {}⟩ :: ⟨.caret, {}⟩ :: exponent)) rfl
        (by simp; omega) (noOperatorNext_rightParen _ _)
      have hbase := Reads.parens (p := p.enter) hparen hinner rfl
      have hexponent : Reads (nested .factor) (p.enter.upTo exponent) (.ok .one) (p.enter.upTo afterPower) :=
        Rule.ReadsAll.nested (Rule.derives_one .factor).completes (Nat.succ_pos 0) (stopsBelow_steps (by decide) m _)
          (by simp; omega)
      have hpower := Reads.power hbase rfl hexponent
      have hsign : NoneNext UnaryOp.sign? p.enter.rest := noneNext_of_cons hparen rfl
      have hnot : NoneNext UnaryOp.negation? p.enter.rest := noneNext_of_cons hparen rfl
      have hvar : NoneNext (Token.is? (.keyword .var)) p.enter.rest := noneNext_of_cons hparen rfl
      -- each repetition gives its levels back at its end, so the next one has them all again
      have hlevels : p.depth + 1 + (m + 1) ≤ p.limit := by omega
      have hproduct := (Reads.unsigned hsign hpower).repetition_steps (l := .product) (n := m + 1) rfl hlevels
        (stopsBelow_steps (by decide) m _)
      have hsum := hproduct.repetition_steps (l := .sum) (n := m + 1) rfl hlevels (stopsBelow_steps (by decide) m _)
      have hcomparison := hsum.repetition_steps (l := .comparison) (n := m + 1) rfl hlevels
        (stopsBelow_steps (by decide) m _)
      have hlogic := (Reads.comparison hnot hcomparison).repetition_steps (l := .logic) (n := m + 1) rfl hlevels
        (stopsBelow_zero_iff.mpr hstop)
      exact .deeper (by omega) (.logic hvar hlogic)

/-- What a limit of `D` levels lets through has at most the height `2 * D ^ 2 - D`, and some list of lexemes is
read as an expression of that height. -/
theorem height_bound {D : Nat} (hD : 1 ≤ D) :
    (∀ lexemes e, Expr.ofLexemes? D lexemes = .ok e → e.height ≤ 2 * D ^ 2 - D) ∧
    ∃ lexemes e, Expr.ofLexemes? D lexemes = .ok e ∧ e.height = 2 * D ^ 2 - D := by
  obtain ⟨m, rfl⟩ : ∃ m, D = m + 1 := ⟨D - 1, by omega⟩
  rw [← Expr.tallest_eq]
  constructor
  · intro lexemes e h
    obtain ⟨hread, _⟩ := Parser.whole_eq_ok_iff.mp (Prod.ext h rfl)
    obtain ⟨n, hn, hheight⟩ := (Parser.expression_eq_iff.mp hread).allowsHeight rfl
    obtain rfl : m = n := by simpa [Parser.levels] using hn
    exact hheight.trans_eq (tallest_expression m)
  · let p := Parser.ofLexemes (Lexeme.tower m) (m + 1)
    have hread : Reads (nested .expression) p (.ok (Expr.tower m)) (p.upTo []) :=
      Reads.tower m (List.append_nil _).symm (by simp [p]) (by simp [NoOperatorNext])
    have hwhole := Parser.whole_eq_ok_iff.mpr ⟨Parser.expression_eq_iff.mpr hread, rfl⟩
    exact ⟨Lexeme.tower m, Expr.tower m, congrArg Prod.fst hwhole, Expr.height_tower m⟩

theorem height_bound_two :
    (∀ lexemes e, Expr.ofLexemes? 2 lexemes = .ok e → e.height ≤ 6) ∧
      ∃ lexemes e, Expr.ofLexemes? 2 lexemes = .ok e ∧ e.height = 6 :=
  height_bound (D := 2) (by decide)

end LineCalc
