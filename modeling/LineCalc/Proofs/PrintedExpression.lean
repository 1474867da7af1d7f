import LineCalc.Proofs.GrammarAcceptance
import LineCalc.Proofs.LongestMatch
import LineCalc.Proofs.MovedPlaces

/-!
Printing an expression and reading it back. In the text of an expression every token is followed by a blank, by
a closing parenthesis or by nothing, and no spelling reaches beyond these (`SpelledBy.isLongest`), so the text is
cut into the tokens that it was put together from. Every operation is printed in parentheses, which makes it an
atom, and an atom can be an operand of any operator. So the text is read as the expression that it was printed
from, wherever this one stood (`read_text`).
-/

namespace LineCalc

theorem Numeral.AllDigits.mem_chars {n : Numeral} (hn : n.AllDigits) {c : Char} (hc : c ∈ n.chars) :
    c.isDigit ∨ c = '.' := by
  obtain ⟨whole, fraction⟩ := n
  obtain ⟨hwhole, hfraction⟩ := hn
  cases fraction with
  | none => exact .inl (hwhole c hc)
  | some ds =>
      rw [chars, List.mem_append, List.mem_cons] at hc
      obtain hc | hc | hc := hc
      · exact .inl (hwhole c hc)
      · exact .inr hc
      · exact .inl (hfraction ds rfl c hc)

namespace Token

/-- Nothing, or a character that ends the token before it. -/
def EndsToken (cs : List Char) : Prop := ∀ c ∈ cs.head?, c = ' ' ∨ c = ')'

variable {p q r : Position} {t : Token} {c d : Char} {piece cs ds es : List Char} {ls ms : List Lexeme}

theorem endsToken_blank (cs : List Char) : EndsToken (' ' :: cs) := by
  rintro _ ⟨⟩
  exact .inl rfl

theorem endsToken_rightParen (cs : List Char) : EndsToken (')' :: cs) := by
  rintro _ ⟨⟩
  exact .inr rfl

/-- What a spelling can go on with: more of a word or of a number, or an equals sign. -/
theorem SpelledBy.mem_tail (h : t.SpelledBy (c :: cs)) (hd : d ∈ cs) : isWordChar d ∨ d = '.' ∨ d = '=' := by
  obtain ⟨_, hmore, _⟩ | ⟨_, n, hn, hchars, _⟩ | ⟨ht, hspelling⟩ := h.cases_cons
  · exact .inl (hmore d hd)
  · obtain hdigit | hpoint := hn.mem_chars (c := d) (by rw [hchars]; exact List.mem_cons_of_mem c hd)
    · exact .inl (by simp [isWordChar, Char.isAlphanum, hdigit])
    · exact .inr (.inl hpoint)
  · obtain ⟨_, rfl | ⟨rfl, _⟩⟩ := spelling_of_mem_operators ht hspelling
    · cases hd
    · exact .inr (.inr (List.mem_singleton.mp hd))

/-- A spelling is the longest one in front of a character that no spelling goes on with. -/
theorem SpelledBy.isLongest_of_head? (h : t.SpelledBy piece)
    (hcs : ∀ d ∈ cs.head?, ¬(isWordChar d ∨ d = '.' ∨ d = '=')) : t.IsLongest piece (piece ++ cs) where
  startsWith := List.prefix_append _ _
  spelledBy := h
  longest u longer hlonger hu := by
    by_contra hlt
    obtain ⟨more, rfl⟩ := List.prefix_of_prefix_length_le (List.prefix_append piece cs) hlonger (by omega)
    obtain ⟨c, first, rfl⟩ := List.exists_cons_of_ne_nil h.ne_nil
    obtain ⟨d, more, rfl⟩ := List.exists_cons_of_ne_nil (l := more) (by rintro rfl; simp at hlt)
    obtain ⟨behind, rfl⟩ := (List.prefix_append_right_inj _).mp hlonger
    exact hcs d rfl (hu.mem_tail (by simp))

theorem SpelledBy.isLongest (h : t.SpelledBy piece) (hcs : EndsToken cs) : t.IsLongest piece (piece ++ cs) := by
  refine h.isLongest_of_head? ?_
  intro d hd
  obtain rfl | rfl := hcs d hd <;> decide

namespace Cuts

theorem append (h : Cuts p cs ls q ds) (h' : Cuts q ds ms r es) : Cuts p cs (ls ++ ms) r es := by
  induction h with
  | here => exact h'
  | skip hspace _ ih => exact .skip hspace (ih h')
  | take hlongest _ ih => exact .take hlongest (ih h')

theorem token (h : t.SpelledBy piece) (hcs : EndsToken cs) (p : Position) :
    Cuts p (piece ++ cs) [⟨t, p, p.advanceAll piece⟩] (p.advanceAll piece) cs :=
  .take (h.isLongest hcs) .here

/-- A token, the blank behind it, and what follows. -/
theorem word (h : t.SpelledBy piece) (hmore : Cuts ((p.advanceAll piece).advance ' ') cs ls q ds) :
    Cuts p (piece ++ ' ' :: cs) (⟨t, p, p.advanceAll piece⟩ :: ls) q ds :=
  .take (h.isLongest (endsToken_blank cs)) (.skip (.inl rfl) hmore)

end Cuts
end Token

/-- A letter, and letters, digits and underscores behind it, but no keyword. -/
def IsName (x : String) : Prop :=
  ∃ c cs, x.toList = c :: cs ∧ c.isAlpha ∧ (∀ d ∈ cs, d.isAlphanum ∨ d = '_') ∧ ∀ k : Keyword, x ≠ k.spelling

theorem IsName.spelledBy {x : String} (h : IsName x) : (Token.identifier x).SpelledBy x.toList := by
  obtain ⟨c, cs, hx, hfirst, hmore, hkeyword⟩ := h
  have hspelled : (Token.identifier (String.ofList (c :: cs))).SpelledBy (c :: cs) := by
    refine .identifier hfirst hmore ?_
    intro k hk
    exact hkeyword k (String.toList_inj.mp (hx.trans hk.symm))
  rwa [← hx, String.ofList_toList] at hspelled

theorem spelledBy_literalText {n : Int64} (h : 0 ≤ n) :
    (Token.number (.int n)).SpelledBy (Num.int n).literalText.toList := by
  have hnonneg : 0 ≤ n.toInt := Int64.le_iff_toInt_le.mp h
  obtain ⟨k, hk⟩ := Int.eq_ofNat_of_zero_le hnonneg
  have htext : (Num.int n).literalText.toList = Nat.toDigits 10 k := by
    rw [Num.literalText, hk]
    exact Nat.toList_repr
  rw [htext]
  refine .integer ⟨?_, ?_⟩ ?_
  · rw [← Nat.toList_repr, ne_eq, String.toList_eq_nil_iff]
    exact Nat.repr_ne_empty
  · intro c hc
    exact Nat.isDigit_of_mem_toDigits (by decide) (by decide) hc
  · rw [Nat.ofDigitChars_ten_toDigits, hk]

theorem UnaryOp.spelledBy (op : UnaryOp) : op.token.SpelledBy op.token.spelling.toList := by
  cases op with
  | not => exact .keyword .not
  | plus | minus => exact .operator (by simp [token, Token.operators])

theorem BinaryOp.spelledBy (op : BinaryOp) : op.token.SpelledBy op.token.spelling.toList := by
  cases op with
  | and => exact .keyword .and
  | or => exact .keyword .or
  | _ => exact .operator (by simp [token, Token.operators])

/-! ### Atoms as parts -/

namespace Rule

variable {r : Rule} {ls ms : List Lexeme} {e left right : Expr}

theorem Derives.of_repetition {l : Level} (h : (repetition l).Derives ls e) : expression.Derives ls e := by
  cases l with
  | logic => exact .logic h
  | comparison => exact .logic (.operand (.comparison h))
  | sum => exact .logic (.operand (.comparison (.operand h)))
  | product => exact .logic (.operand (.comparison (.operand (.operand h))))

/-- An operator before an atom makes an expression. -/
theorem Derives.unary (h : atom.Derives ls e) (op : UnaryOp) (s : Span) :
    expression.Derives (⟨op.token, s⟩ :: ls) (.unary ⟨op, s⟩ e) := by
  cases op with
  | not => exact .logic (.operand (.negation (h.of_atom condition)))
  | plus | minus =>
      refine .of_repetition (.operand (l := .product) (.sign ?_ (h.of_atom factor)))
      simp [UnaryOp.signs]

/-- An operator between atoms makes an expression. -/
theorem Derives.binary (hleft : atom.Derives ls left) (op : BinaryOp) (s : Span) (hright : atom.Derives ms right) :
    expression.Derives (ls ++ ⟨op.token, s⟩ :: ms) (.binary left ⟨op, s⟩ right) := by
  by_cases hop : ∃ l : Level, op ∈ l.operators
  · obtain ⟨l, hmem⟩ := hop
    exact .of_repetition (.operation hmem (hleft.of_atom _) (hright.of_atom _))
  · obtain rfl : op = .pow := by
      cases op with
      | pow => rfl
      | or | and => exact absurd ⟨.logic, by decide⟩ hop
      | add | sub => exact absurd ⟨.sum, by decide⟩ hop
      | mul | div => exact absurd ⟨.product, by decide⟩ hop
      | _ => exact absurd ⟨.comparison, by decide⟩ hop
    have hpower := Derives.power (s := s) hleft (hright.of_atom factor)
    exact .of_repetition (.operand (l := .product) (.unsigned hpower))

end Rule

/-! ### Texts of phrases -/

namespace Rule

open Token

/-- In front of what ends tokens the characters are cut into lexemes that spell the expression by the rule, wherever
they stand. -/
def Writes (r : Rule) (cs : List Char) (e : Expr) : Prop :=
  ∀ p rest, EndsToken rest → ∃ ls q e', Cuts p (cs ++ rest) ls q rest ∧ r.Derives ls e' ∧ e'.unlocated = e.unlocated

variable {cs ds : List Char} {e left right : Expr}

theorem writes_number {n : Located Num} (h : (Token.number n.value).SpelledBy cs) : atom.Writes cs (.number n) := by
  intro p rest hrest
  have hread := Derives.number (n := ⟨n.value, p, p.advanceAll cs⟩)
  exact ⟨_, _, _, .token h hrest p, hread, rfl⟩

theorem writes_name {x : Located String} (h : (Token.identifier x.value).SpelledBy cs) :
    atom.Writes cs (.name x) := by
  intro p rest hrest
  have hread := Derives.name (x := ⟨x.value, p, p.advanceAll cs⟩)
  exact ⟨_, _, _, .token h hrest p, hread, rfl⟩

theorem Writes.parens (h : expression.Writes cs e) : atom.Writes ('(' :: (cs ++ [')'])) e := by
  intro p rest hrest
  obtain ⟨ls, q, e', hcuts, hderives, he⟩ := h (p.advanceAll ['(']) (')' :: rest) (endsToken_rightParen rest)
  have hopen : leftParen.IsLongest ['('] (['('] ++ (cs ++ ')' :: rest)) :=
    isLongest_single (by simp [operators]) rfl (.inl (by decide))
  have hclose : rightParen.IsLongest [')'] ([')'] ++ rest) :=
    isLongest_single (by simp [operators]) rfl (.inl (by decide))
  have hall := Cuts.take (p := p) hopen (hcuts.append (.take hclose .here))
  have htext : '(' :: (cs ++ [')']) ++ rest = ['('] ++ (cs ++ ')' :: rest) := by simp
  rw [← htext] at hall
  exact ⟨_, _, e', hall, .parens hderives, he⟩

theorem Writes.unary (op : Located UnaryOp) (h : atom.Writes cs e) :
    expression.Writes (op.value.token.spelling.toList ++ ' ' :: cs) (.unary op e) := by
  intro p rest hrest
  generalize hstop : p.advanceAll op.value.token.spelling.toList = stop
  obtain ⟨ls, q, e', hcuts, hderives, he⟩ := h (stop.advance ' ') rest hrest
  subst hstop
  have hall := Cuts.word op.value.spelledBy hcuts
  rw [← List.cons_append, ← List.append_assoc] at hall
  refine ⟨_, _, _, hall, hderives.unary op.value _, ?_⟩
  exact congrArg (Expr.unary ⟨op.value, {}⟩) he

theorem Writes.binary (hleft : atom.Writes cs left) (op : Located BinaryOp) (hright : atom.Writes ds right) :
    expression.Writes (cs ++ ' ' :: (op.value.token.spelling.toList ++ ' ' :: ds)) (.binary left op right) := by
  intro p rest hrest
  obtain ⟨ls, q, left', hcutsleft, hderivesleft, hel⟩ :=
    hleft p (' ' :: (op.value.token.spelling.toList ++ ' ' :: (ds ++ rest))) (endsToken_blank _)
  generalize hstop : (q.advance ' ').advanceAll op.value.token.spelling.toList = stop
  obtain ⟨ms, r, right', hcutsright, hderivesright, her⟩ := hright (stop.advance ' ') rest hrest
  subst hstop
  have hall := hcutsleft.append (.skip (.inl rfl) (.word op.value.spelledBy hcutsright))
  have htext : cs ++ ' ' :: (op.value.token.spelling.toList ++ ' ' :: ds) ++ rest =
      cs ++ ' ' :: (op.value.token.spelling.toList ++ ' ' :: (ds ++ rest)) := by simp
  rw [← htext] at hall
  refine ⟨_, _, _, hall, hderivesleft.binary op.value _ hderivesright, ?_⟩
  exact congrArg₂ (fun l r => Expr.binary l ⟨op.value, {}⟩ r) hel her

theorem Writes.assign {x : Located String} (hx : (Token.identifier x.value).SpelledBy ds) (h : atom.Writes cs e) :
    expression.Writes (Keyword.var.spelling.toList ++ ' ' :: (ds ++ ' ' :: ('=' :: ' ' :: cs))) (.assign x e) := by
  intro p rest hrest
  generalize hvar : p.advanceAll Keyword.var.spelling.toList = q₁
  generalize hname : (q₁.advance ' ').advanceAll ds = q₂
  generalize hequal : (q₂.advance ' ').advanceAll ['='] = q₃
  obtain ⟨ls, q, e', hcuts, hderives, he⟩ := h (q₃.advance ' ') rest hrest
  subst hequal hname hvar
  have hsign : Token.equal.SpelledBy ['='] := .operator (t := .equal) (by simp [operators])
  have hall := Cuts.word (.keyword .var) (.word hx (.word hsign hcuts))
  have htext : Keyword.var.spelling.toList ++ ' ' :: (ds ++ ' ' :: ('=' :: ' ' :: cs)) ++ rest =
      Keyword.var.spelling.toList ++ ' ' :: (ds ++ ' ' :: (['='] ++ ' ' :: (cs ++ rest))) := by simp
  rw [← htext] at hall
  have hread (s s' t : Span) : expression.Derives
      (⟨.keyword .var, s⟩ :: ⟨.identifier x.value, s'⟩ :: ⟨.equal, t⟩ :: ls) (.assign ⟨x.value, s'⟩ e') :=
    .assign (x := ⟨x.value, s'⟩) (hderives.of_atom expression)
  refine ⟨_, _, _, hall, hread _ _ _, ?_⟩
  exact congrArg (Expr.assign ⟨x.value, {}⟩) he

end Rule

namespace Expr

/-- The numbers are integers that are not negative, since signs are operators, and the names can be told from other
tokens. -/
def IsPrintable : Expr → Prop
  | number n => ∃ k : Int64, n.value = .int k ∧ 0 ≤ k
  | name x => IsName x.value
  | assign x value => IsName x.value ∧ value.IsPrintable
  | unary _ operand => operand.IsPrintable
  | binary left _ right => left.IsPrintable ∧ right.IsPrintable

/-- The text of an expression is an atom. -/
theorem IsPrintable.writes {e : Expr} (h : e.IsPrintable) : Rule.atom.Writes e.text.toList e := by
  induction e with
  | number n =>
      obtain ⟨k, hk, hnonneg⟩ := h
      refine Rule.writes_number ?_
      rw [text, hk]
      exact spelledBy_literalText hnonneg
  | name x => exact Rule.writes_name h.spelledBy
  | assign x value ih =>
      have hall := (Rule.Writes.assign h.1.spelledBy (ih h.2)).parens
      simpa [text] using hall
  | unary op operand ih =>
      have hall := ((ih h).unary op).parens
      simpa [text] using hall
  | binary left op right ihleft ihright =>
      have hall := ((ihleft h.1).binary op (ihright h.2)).parens
      simpa [text] using hall

/-- Reading undoes printing. The text of an expression scans, and the lexemes are read as the expression again,
wherever it stood before, if the limit allows for one level more than there are lexemes. -/
theorem read_text {e : Expr} (h : e.IsPrintable) (start : Position) :
    ∃ lexemes, Token.scan start e.text = .ok lexemes ∧
      ∀ limit, lexemes.length < limit →
        ∃ e', Expr.ofLexemes? limit lexemes = .ok e' ∧ e'.unlocated = e.unlocated := by
  obtain ⟨ls, q, e', hcuts, hderives, he⟩ := h.writes { start with offset := 0 } [] nofun
  rw [List.append_nil] at hcuts
  refine ⟨_, hcuts.of_toEnd, ?_⟩
  intro limit hlimit
  have hbefore := Lexeme.beforeEnd_append hderives.value_ne_eof [⟨.eof, .emptyAt q⟩]
  have hend : Lexeme.beforeEnd [⟨.eof, .emptyAt q⟩] = [] := rfl
  rw [hend, List.append_nil] at hbefore
  rw [List.length_append] at hlimit
  refine ⟨e', (Expr.ofLexemes?_eq_ok_iff ?_).mpr ?_, he⟩
  · rw [hbefore]
    omega
  · rw [hbefore]
    exact hderives.of_atom .expression

theorem read_text_power :
    let e : Expr := .binary (.assign ⟨"x", {}⟩ (.number ⟨.int 2, {}⟩)) ⟨.pow, {}⟩ (.unary ⟨.not, {}⟩ (.name ⟨"y", {}⟩))
    e.text = "((VAR x = 2) ^ (NOT y))" ∧ e.IsPrintable ∧
      ∃ lexemes, Token.scan {} e.text = .ok lexemes ∧
        ∀ limit, lexemes.length < limit → ∃ e', Expr.ofLexemes? limit lexemes = .ok e' ∧ e'.unlocated = e := by
  intro e
  have hx : IsName "x" := ⟨'x', [], rfl, by decide, nofun, fun k => by cases k <;> decide⟩
  have hy : IsName "y" := ⟨'y', [], rfl, by decide, nofun, fun k => by cases k <;> decide⟩
  have he : e.IsPrintable := ⟨⟨hx, 2, rfl, by decide⟩, hy⟩
  exact ⟨by decide, he, read_text he {}⟩

end Expr
end LineCalc
