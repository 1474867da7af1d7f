/-!
Blank characters: the 25 that have the Unicode property `White_Space`. Trimming removes them at the ends of a
text.
-/

namespace LineCalc.Text

/-- Whether a character has the property `White_Space`. -/
def isBlank (c : Char) : Bool :=
  ('\x09' ≤ c && c ≤ '\x0d') || c == ' ' || c == '\u0085' || c == '\u00a0' || c == '\u1680' ||
    ('\u2000' ≤ c && c ≤ '\u200a') || c == '\u2028' || c == '\u2029' || c == '\u202f' || c == '\u205f' ||
    c == '\u3000'

/-- The text without the blanks it starts with. -/
def trimStart (cs : List Char) : List Char := cs.dropWhile isBlank

/-- The text without the characters with `p` that it ends with. -/
def dropEndWhile (p : Char → Bool) (cs : List Char) : List Char := (cs.reverse.dropWhile p).reverse

/-- The text without the blanks it ends with. -/
def trimEnd (cs : List Char) : List Char := dropEndWhile isBlank cs

/-- The printed characters of ASCII are no blanks. -/
theorem isBlank_eq_false_of_printed {c : Char} (hlow : '!' ≤ c) (hhigh : c ≤ '~') : isBlank c = false := by
  rw [Char.le_def, UInt32.le_iff_toNat_le] at hlow hhigh
  simp only [isBlank, Bool.or_eq_false_iff, Bool.and_eq_false_imp, decide_eq_true_eq, decide_eq_false_iff_not,
    beq_eq_false_iff_ne, ne_eq, Char.le_def, UInt32.le_iff_toNat_le, Char.ext_iff, ← UInt32.toNat_inj]
  simp at hlow hhigh ⊢
  omega

end LineCalc.Text
