import LineCalc.Token.Scan
import Mathlib

/-!
The spellings of the tokens. `t.SpelledBy cs` says that the characters `cs` spell `t`: an operator and a keyword
have one spelling, a word that is no keyword is an identifier, and a number is a run of digits with at most one
point. The first character tells which of the three it is. Scanning is stated against the spellings alone: at
each place `Token.munch` takes the longest of them (`toTake_munch`).
-/

namespace LineCalc

/-- One digit or more. -/
def IsDigits (cs : List Char) : Prop := cs ≠ [] ∧ ∀ c ∈ cs, c.isDigit

theorem Keyword.ofWord?_eq_some_iff {word : String} {k : Keyword} :
    ofWord? word = some k ↔ word = k.spelling := by
  constructor
  · intro h
    unfold ofWord? at h
    split at h <;> cases h <;> rfl
  · rintro rfl
    cases k <;> rfl

theorem length_le_takeWhile {p : Char → Bool} {cs ds : List Char} (hstarts : ds <+: cs) (hds : ∀ d ∈ ds, p d) :
    ds.length ≤ (cs.takeWhile p).length := by
  obtain ⟨es, rfl⟩ := hstarts
  rw [List.takeWhile_append_of_pos hds, List.length_append]
  exact Nat.le_add_right _ _

namespace Numeral

/-- Nothing but digits around the point. -/
def AllDigits (n : Numeral) : Prop := (∀ c ∈ n.whole, c.isDigit) ∧ ∀ ds ∈ n.fraction, ∀ c ∈ ds, c.isDigit

theorem allDigits_ofChars (cs : List Char) : (ofChars cs).AllDigits := by
  refine ⟨fun c hc => List.all_eq_true.mp List.all_takeWhile c hc, ?_⟩
  intro ds hds
  simp only [ofChars] at hds
  split at hds
  · cases hds
    exact fun c hc => List.all_eq_true.mp List.all_takeWhile c hc
  · cases hds

theorem chars_ofChars_prefix (cs : List Char) : (ofChars cs).chars <+: cs := by
  have hcs : cs.takeWhile Char.isDigit ++ cs.dropWhile Char.isDigit = cs := List.takeWhile_append_dropWhile
  simp only [ofChars]
  split
  · next ds hds =>
    rw [hds] at hcs
    refine ⟨ds.dropWhile Char.isDigit, ?_⟩
    simp only [chars]
    rw [List.append_assoc, List.cons_append, List.takeWhile_append_dropWhile, hcs]
  · exact List.takeWhile_prefix _

theorem chars_ofChars_ne_nil {c : Char} (hc : c.isDigit ∨ c = '.') (cs : List Char) :
    (ofChars (c :: cs)).chars ≠ [] := by
  obtain hc | rfl := hc
  · simp only [ofChars, List.takeWhile_cons_of_pos hc]
    split <;> simp [chars]
  · simp [ofChars, chars, Char.isDigit]

/-- No longer numeral can be read where `ofChars` reads one. -/
theorem ofChars_longest {n : Numeral} {cs : List Char} (hn : n.AllDigits) (hstarts : n.chars <+: cs) :
    n.chars.length ≤ (ofChars cs).chars.length := by
  obtain ⟨whole, fraction⟩ := n
  obtain ⟨hwhole, hfraction⟩ := hn
  cases fraction with
  | none =>
      have hle := length_le_takeWhile hstarts hwhole
      refine Nat.le_trans hle ?_
      simp only [ofChars]
      split
      · rw [chars, List.length_append]
        exact Nat.le_add_right _ _
      · exact Nat.le_refl _
  | some ds =>
      obtain ⟨es, rfl⟩ := hstarts
      have hds : ∀ c ∈ ds, c.isDigit := hfraction ds rfl
      simp only [chars, ofChars, List.append_assoc, List.takeWhile_append_of_pos hwhole,
        List.dropWhile_append_of_pos hwhole, List.cons_append]
      rw [List.takeWhile_cons_of_neg (by decide), List.dropWhile_cons_of_neg (by decide), List.append_nil]
      simp only [List.takeWhile_append_of_pos hds, List.length_append, List.length_cons]
      omega

/-- The characters tell the numeral. -/
theorem ofChars_chars {n : Numeral} (hn : n.AllDigits) : ofChars n.chars = n := by
  obtain ⟨whole, fraction⟩ := n
  obtain ⟨hwhole, hfraction⟩ := hn
  cases fraction with
  | none =>
      have htake : whole.takeWhile Char.isDigit = whole := List.takeWhile_eq_self_iff.mpr hwhole
      have hdrop : whole.dropWhile Char.isDigit = [] := List.dropWhile_eq_nil_iff.mpr hwhole
      simp only [ofChars, chars, htake, hdrop]
  | some ds =>
      have hds : ds.takeWhile Char.isDigit = ds := List.takeWhile_eq_self_iff.mpr (hfraction ds rfl)
      simp only [ofChars, chars, List.takeWhile_append_of_pos hwhole, List.dropWhile_append_of_pos hwhole]
      rw [List.takeWhile_cons_of_neg (by decide), List.dropWhile_cons_of_neg (by decide), List.append_nil]
      simp only [hds]

theorem num?_eq_none_iff {n : Numeral} : n.num? = none ↔ n = ⟨[], some []⟩ := by
  obtain ⟨whole, fraction⟩ := n
  cases fraction with
  | none => simp [num?]
  | some ds => simp [num?]

end Numeral

namespace Token

/-- The tokens that have one spelling, without the keywords. -/
def operators : List Token :=
  [plus, minus, star, slash, caret, leftParen, rightParen, equal, equalEqual, bangEqual, less, lessEqual, greater,
    greaterEqual]

/-- The characters that operators start with. -/
def operatorStarts : List Char := ['+', '-', '*', '/', '^', '(', ')', '=', '!', '<', '>']

/-- The characters spell the token. A run of digits is an integer if its value fits one, and a double otherwise;
a number with a point is a double. Doubles are rounded correctly. -/
inductive SpelledBy : Token → List Char → Prop
  | operator {t} (ht : t ∈ operators) : SpelledBy t t.spelling.toList
  | keyword (k : Keyword) : SpelledBy (.keyword k) k.spelling.toList
  | identifier {c cs} (hfirst : c.isAlpha) (hmore : ∀ d ∈ cs, d.isAlphanum ∨ d = '_')
      (hkeyword : ∀ k : Keyword, k.spelling.toList ≠ c :: cs) :
      SpelledBy (.identifier (String.ofList (c :: cs))) (c :: cs)
  | integer {n : Int64} {digits} (hdigits : IsDigits digits) (hvalue : n.toInt = Nat.ofDigitChars 10 digits 0) :
      SpelledBy (.number (.int n)) digits
  | large {digits} (hdigits : IsDigits digits) (hvalue : 2 ^ 63 - 1 < Nat.ofDigitChars 10 digits 0) :
      SpelledBy (.number (.float (.ofScientific (Nat.ofDigitChars 10 digits 0) false 0))) digits
  | point {whole fraction} (hwhole : ∀ c ∈ whole, c.isDigit) (hfraction : ∀ c ∈ fraction, c.isDigit)
      (hdigit : whole ++ fraction ≠ []) :
      SpelledBy
        (.number (.float (.ofScientific (Nat.ofDigitChars 10 (whole ++ fraction) 0) true fraction.length)))
        (whole ++ '.' :: fraction)

/-- The token is spelled by `piece`, with which the text starts, and no token is spelled by more of the text. -/
structure IsLongest (t : Token) (piece text : List Char) : Prop where
  startsWith : piece <+: text
  spelledBy : t.SpelledBy piece
  longest : ∀ (u : Token) (cs : List Char), cs <+: text → u.SpelledBy cs → cs.length ≤ piece.length

/-- The text starts with the spelling of no token. -/
def NoneStarts (text : List Char) : Prop := ∀ (t : Token) (cs : List Char), cs <+: text → ¬t.SpelledBy cs

/-! ### What a first character can spell -/

variable {t u : Token} {c : Char} {cs ds piece text : List Char}

/-- An operator has one character, or an equals sign behind it. -/
theorem spelling_of_mem_operators (ht : t ∈ operators) (hspelling : t.spelling.toList = c :: ds) :
    c ∈ operatorStarts ∧ (ds = [] ∨ ds = ['='] ∧ c ∈ ['=', '!', '<', '>']) := by
  have hall : ∀ t ∈ operators, t.spelling.toList.head? ∈ operatorStarts.map some ∧
    (t.spelling.toList.tail = [] ∨
      t.spelling.toList.tail = ['='] ∧ t.spelling.toList.head? ∈ ['=', '!', '<', '>'].map some) := by decide
  have h := hall t ht
  rw [hspelling] at h
  simpa using h

theorem class_of_mem_operatorStarts (hc : c ∈ operatorStarts) :
    c.isAlpha = false ∧ c.isDigit = false ∧ c ≠ '.' ∧ c ≠ ' ' ∧ c ≠ '\t' := by
  have hall : ∀ c ∈ operatorStarts, c.isAlpha = false ∧ c.isDigit = false ∧ c ≠ '.' ∧ c ≠ ' ' ∧ c ≠ '\t' := by
    simp [operatorStarts]
  exact hall c hc

theorem SpelledBy.ne_nil (h : t.SpelledBy cs) : cs ≠ [] := by
  cases h with
  | operator ht => revert t; decide
  | keyword k => cases k <;> decide
  | identifier => exact List.cons_ne_nil _ _
  | integer hdigits | large hdigits => exact hdigits.1
  | point => simp

/-- Words, numbers and operators differ in the first character. -/
theorem SpelledBy.cases_cons (h : t.SpelledBy (c :: cs)) :
    (c.isAlpha ∧ (∀ d ∈ cs, isWordChar d) ∧ t = ofWord (String.ofList (c :: cs))) ∨
    ((c.isDigit ∨ c = '.') ∧ ∃ n : Numeral, n.AllDigits ∧ n.chars = c :: cs ∧ n.num?.map number = some t) ∨
    (t ∈ operators ∧ t.spelling.toList = c :: cs) := by
  generalize hds : c :: cs = ds at h
  cases h with
  | operator ht => exact .inr (.inr ⟨ht, rfl⟩)
  | keyword k =>
      left
      rw [String.ofList_toList]
      cases k <;> cases hds <;> exact ⟨rfl, List.all_eq_true.mp rfl, by decide⟩
  | @identifier c' cs' hfirst hmore hkeyword =>
      cases hds
      refine .inl ⟨hfirst, fun d hd => by simpa [isWordChar] using hmore d hd, ?_⟩
      have hnone : Keyword.ofWord? (String.ofList (c :: cs)) = none := by
        cases hword : Keyword.ofWord? (String.ofList (c :: cs)) with
        | none => rfl
        | some k =>
            have hspelling := Keyword.ofWord?_eq_some_iff.mp hword
            exact absurd (by rw [← hspelling, String.toList_ofList]) (hkeyword k)
      rw [ofWord, hnone]
  | integer hdigits hvalue =>
      refine .inr (.inl ⟨.inl (hdigits.2 c (by simp [← hds])), ⟨ds, none⟩, ⟨hdigits.2, nofun⟩, rfl, ?_⟩)
      simp only [Numeral.num?, fitInt?_eq_some_iff.mpr hvalue, Option.map_some]
  | large hdigits hvalue =>
      have hfit : fitInt? (Nat.ofDigitChars 10 ds 0 : Nat) = none := by
        rw [fitInt?_eq_none_iff, Int64.toInt_maxValue]
        omega
      refine .inr (.inl ⟨.inl (hdigits.2 c (by simp [← hds])), ⟨ds, none⟩, ⟨hdigits.2, nofun⟩, rfl, ?_⟩)
      simp only [Numeral.num?, hfit, Option.map_some]
  | @point whole fraction hwhole hfraction hdigit =>
      have hc : c.isDigit ∨ c = '.' := by
        cases whole with
        | nil => exact .inr (List.cons.inj hds).1
        | cons d whole =>
            rw [(List.cons.inj hds).1]
            exact .inl (hwhole d List.mem_cons_self)
      refine .inr (.inl ⟨hc, ⟨whole, some fraction⟩, ⟨hwhole, by simpa using hfraction⟩, rfl, ?_⟩)
      rw [ne_eq, List.append_eq_nil_iff] at hdigit
      simp [Numeral.num?, hdigit]

theorem spelledBy_ofWord (hc : c.isAlpha) (hcs : ∀ d ∈ cs, isWordChar d) :
    (ofWord (String.ofList (c :: cs))).SpelledBy (c :: cs) := by
  rw [ofWord]
  cases hword : Keyword.ofWord? (String.ofList (c :: cs)) with
  | none =>
      refine .identifier hc (fun d hd => by simpa [isWordChar] using hcs d hd) ?_
      intro k hk
      rw [← hk, String.ofList_toList, Keyword.ofWord?_eq_some_iff.mpr rfl] at hword
      cases hword
  | some k =>
      have hspelling := congrArg String.toList (Keyword.ofWord?_eq_some_iff.mp hword)
      rw [String.toList_ofList] at hspelling
      rw [hspelling]
      exact .keyword k

theorem spelledBy_number {n : Numeral} {v : Num} (hn : n.AllDigits) (hne : n.chars ≠ []) (hv : n.num? = some v) :
    (number v).SpelledBy n.chars := by
  obtain ⟨whole, fraction⟩ := n
  obtain ⟨hwhole, hfraction⟩ := hn
  cases fraction with
  | none =>
      simp only [Numeral.num?, Option.some.injEq] at hv
      split at hv
      · next i hfit =>
        cases hv
        exact .integer ⟨hne, hwhole⟩ (fitInt?_eq_some_iff.mp hfit)
      · next hfit =>
        cases hv
        rw [fitInt?_eq_none_iff, Int64.toInt_minValue, Int64.toInt_maxValue] at hfit
        exact .large ⟨hne, hwhole⟩ (by omega)
  | some fraction =>
      simp only [Numeral.num?] at hv
      split at hv
      · cases hv
      · next hdigit =>
        cases hv
        exact .point hwhole (hfraction fraction rfl) (by simpa using hdigit)

theorem isAlpha_of_isDigit (hc : c.isDigit ∨ c = '.') : c.isAlpha = false := by
  obtain hc | rfl := hc
  · simp only [Char.isDigit, Bool.and_eq_true, decide_eq_true_eq, ge_iff_le, UInt32.le_iff_toNat_le] at hc
    simp only [Char.isAlpha, Char.isUpper, Char.isLower, Bool.or_eq_false_iff, decide_eq_false_iff_not, ge_iff_le,
      UInt32.le_iff_toNat_le]
    simp at hc ⊢
    omega
  · decide

theorem word_of_spelledBy (hc : c.isAlpha) (h : t.SpelledBy (c :: cs)) :
    (∀ d ∈ cs, isWordChar d) ∧ t = ofWord (String.ofList (c :: cs)) := by
  obtain h | ⟨hc', _⟩ | ⟨ht, hspelling⟩ := h.cases_cons
  · exact h.2
  · rw [isAlpha_of_isDigit hc'] at hc
    cases hc
  · rw [(class_of_mem_operatorStarts (spelling_of_mem_operators ht hspelling).1).1] at hc
    cases hc

theorem number_of_spelledBy (hc : c.isDigit ∨ c = '.') (h : t.SpelledBy (c :: cs)) :
    ∃ n : Numeral, n.AllDigits ∧ n.chars = c :: cs ∧ n.num?.map number = some t := by
  obtain ⟨hc', _⟩ | h | ⟨ht, hspelling⟩ := h.cases_cons
  · rw [isAlpha_of_isDigit hc] at hc'
    cases hc'
  · exact h.2
  · have hclass := class_of_mem_operatorStarts (spelling_of_mem_operators ht hspelling).1
    simp [hclass] at hc

theorem operator_of_spelledBy (halpha : c.isAlpha = false) (hnumber : ¬(c.isDigit ∨ c = '.'))
    (h : t.SpelledBy (c :: cs)) : t ∈ operators ∧ t.spelling.toList = c :: cs := by
  obtain ⟨hc, _⟩ | ⟨hc, _⟩ | h := h.cases_cons
  · rw [halpha] at hc
    cases hc
  · exact absurd hc hnumber
  · exact h

theorem operators_unique (ht : t ∈ operators) (hu : u ∈ operators) (h : t.spelling.toList = u.spelling.toList) :
    t = u := by
  have hall : ∀ t ∈ operators, ∀ u ∈ operators, t.spelling.toList = u.spelling.toList → t = u := by decide
  exact hall t ht u hu h

/-- Characters spell one token at most. -/
theorem SpelledBy.unique (ht : t.SpelledBy cs) (hu : u.SpelledBy cs) : t = u := by
  cases cs with
  | nil => exact absurd rfl ht.ne_nil
  | cons c cs =>
      by_cases halpha : c.isAlpha
      · rw [(word_of_spelledBy halpha ht).2, (word_of_spelledBy halpha hu).2]
      · by_cases hnumber : c.isDigit ∨ c = '.'
        · obtain ⟨n, hn, hchars, hv⟩ := number_of_spelledBy hnumber ht
          obtain ⟨m, hm, hchars', hw⟩ := number_of_spelledBy hnumber hu
          rw [← Numeral.ofChars_chars hn, hchars, ← hchars', Numeral.ofChars_chars hm, hw] at hv
          exact (Option.some.inj hv).symm
        · rw [Bool.not_eq_true] at halpha
          obtain ⟨ht, hspelling⟩ := operator_of_spelledBy halpha hnumber ht
          obtain ⟨hu, hspelling'⟩ := operator_of_spelledBy halpha hnumber hu
          exact operators_unique ht hu (hspelling.trans hspelling'.symm)

theorem IsLongest.unique (ht : t.IsLongest cs text) (hu : u.IsLongest ds text) : t = u ∧ cs = ds := by
  have hle := hu.longest t cs ht.startsWith ht.spelledBy
  have hge := ht.longest u ds hu.startsWith hu.spelledBy
  obtain rfl : cs = ds :=
    (List.prefix_of_prefix_length_le ht.startsWith hu.startsWith hle).eq_of_length (Nat.le_antisymm hle hge)
  exact ⟨ht.spelledBy.unique hu.spelledBy, rfl⟩

/-! ### The longest spellings -/

theorem isLongest_word (hc : c.isAlpha) :
    (ofWord (String.ofList (c :: cs.takeWhile isWordChar))).IsLongest (c :: cs.takeWhile isWordChar) (c :: cs) where
  startsWith := List.cons_prefix_cons.mpr ⟨rfl, List.takeWhile_prefix _⟩
  spelledBy := spelledBy_ofWord hc (List.all_eq_true.mp List.all_takeWhile)
  longest u ds hds hu := by
    obtain rfl | ⟨es, rfl, hes⟩ := List.prefix_cons_iff.mp hds
    · exact absurd rfl hu.ne_nil
    · exact Nat.succ_le_succ (length_le_takeWhile hes (word_of_spelledBy hc hu).1)

theorem isLongest_number {v : Num} (hc : c.isDigit ∨ c = '.') (hv : (Numeral.ofChars (c :: cs)).num? = some v) :
    (number v).IsLongest (Numeral.ofChars (c :: cs)).chars (c :: cs) where
  startsWith := Numeral.chars_ofChars_prefix _
  spelledBy := spelledBy_number (Numeral.allDigits_ofChars _) (Numeral.chars_ofChars_ne_nil hc cs) hv
  longest u ds hds hu := by
    obtain rfl | ⟨es, rfl, _⟩ := List.prefix_cons_iff.mp hds
    · exact absurd rfl hu.ne_nil
    · obtain ⟨n, hn, hchars, _⟩ := number_of_spelledBy hc hu
      rw [← hchars] at hds ⊢
      exact Numeral.ofChars_longest hn hds

/-- A point alone spells nothing, and that is the only place where no number starts. -/
theorem noneStarts_number (hc : c.isDigit ∨ c = '.') (hv : (Numeral.ofChars (c :: cs)).num? = none) :
    NoneStarts (c :: cs) := by
  intro t ds hds ht
  obtain rfl | ⟨es, rfl, _⟩ := List.prefix_cons_iff.mp hds
  · exact ht.ne_nil rfl
  · obtain ⟨n, hn, hchars, hw⟩ := number_of_spelledBy hc ht
    rw [← hchars] at hds
    have hle := Numeral.ofChars_longest hn hds
    have hfirst := Numeral.chars_ofChars_prefix (c :: cs)
    rw [Numeral.num?_eq_none_iff.mp hv] at hle hfirst
    have hpoint : n.chars = ['.'] := by
      rw [hchars, List.length_cons] at hle
      rw [hchars, List.eq_nil_of_length_eq_zero (Nat.le_zero.mp (Nat.le_of_succ_le_succ hle))]
      rw [(List.cons_prefix_cons.mp hfirst).1]
    have hnone : n.num? = none := by
      rw [← Numeral.ofChars_chars hn, hpoint]
      rfl
    rw [hnone] at hw
    cases hw

theorem isLongest_operator (ht : t ∈ operators) (hspelling : t.spelling.toList = c :: ds)
    (hstarts : ds <+: cs)
    (hlongest : ∀ u ∈ operators, ∀ es, u.spelling.toList = c :: es → es <+: cs → es.length ≤ ds.length) :
    t.IsLongest (c :: ds) (c :: cs) where
  startsWith := List.cons_prefix_cons.mpr ⟨rfl, hstarts⟩
  spelledBy := by
    rw [← hspelling]
    exact .operator ht
  longest u es hes hu := by
    obtain ⟨halpha, hdigit, hpoint, _⟩ :=
      class_of_mem_operatorStarts (spelling_of_mem_operators ht hspelling).1
    obtain rfl | ⟨fs, rfl, hfs⟩ := List.prefix_cons_iff.mp hes
    · exact absurd rfl hu.ne_nil
    · obtain ⟨hmem, hspelling'⟩ := operator_of_spelledBy halpha (by simp [hdigit, hpoint]) hu
      exact Nat.succ_le_succ (hlongest u hmem fs hspelling' hfs)

theorem isLongest_single (ht : t ∈ operators) (hspelling : t.spelling.toList = [c])
    (halone : c ∉ ['=', '!', '<', '>'] ∨ cs.head? ≠ some '=') : t.IsLongest [c] (c :: cs) := by
  apply isLongest_operator ht hspelling List.nil_prefix
  intro u hu es hes hstarts
  obtain ⟨_, rfl | ⟨rfl, hc⟩⟩ := spelling_of_mem_operators hu hes
  · exact Nat.le_refl _
  · obtain ⟨fs, rfl⟩ := hstarts
    simp_all

theorem isLongest_double (ht : t ∈ operators) (hspelling : t.spelling.toList = [c, '=']) (hcs : cs.head? = some '=') :
    t.IsLongest [c, '='] (c :: cs) := by
  obtain ⟨ds, rfl⟩ := List.head?_eq_some_iff.mp hcs
  apply isLongest_operator ht hspelling (List.prefix_append ['='] ds)
  intro u hu es hes _
  obtain ⟨_, rfl | ⟨rfl, _⟩⟩ := spelling_of_mem_operators hu hes
  · exact Nat.zero_le _
  · exact Nat.le_refl _

theorem noneStarts_other (halpha : c.isAlpha = false) (hnumber : ¬(c.isDigit ∨ c = '.'))
    (hoperator : ∀ t ∈ operators, ∀ ds, t.spelling.toList = c :: ds → ¬ds <+: cs) : NoneStarts (c :: cs) := by
  intro t ds hds ht
  obtain rfl | ⟨es, rfl, hes⟩ := List.prefix_cons_iff.mp hds
  · exact ht.ne_nil rfl
  · obtain ⟨hmem, hspelling⟩ := operator_of_spelledBy halpha hnumber ht
    exact hoperator t hmem es hspelling hes

theorem noneStarts_bang (hcs : cs.head? ≠ some '=') : NoneStarts ('!' :: cs) := by
  apply noneStarts_other (by decide) (by decide)
  intro t ht ds hspelling hstarts
  have hbang : ∀ t ∈ operators, t.spelling.toList ≠ ['!'] := by decide
  obtain ⟨_, rfl | ⟨rfl, _⟩⟩ := spelling_of_mem_operators ht hspelling
  · exact hbang t ht hspelling
  · obtain ⟨ds, rfl⟩ := hstarts
    exact hcs rfl

theorem take_of_isLongest (h : t.IsLongest piece (c :: cs)) : c :: cs.take (piece.length - 1) = piece := by
  have hpiece := List.prefix_iff_eq_take.mp h.startsWith
  have hpos := List.length_pos_iff.mpr h.spelledBy.ne_nil
  rw [← Nat.sub_add_cancel hpos, List.take_succ_cons] at hpiece
  exact hpiece.symm

/-! ### The step of the scanner -/

/-- What is to come of the text `c :: cs`: a blank is skipped, and otherwise the longest spelling is taken. If
there is none, the first character is to blame. -/
def ToTake (c : Char) (cs : List Char) : Except ScanError.Cause (Option Token × Nat) → Prop
  | .ok (some t, n) => t.IsLongest (c :: cs.take n) (c :: cs)
  | .ok (none, n) => (c = ' ' ∨ c = '\t') ∧ n = 0
  | .error cause =>
    ¬(c = ' ' ∨ c = '\t') ∧ NoneStarts (c :: cs) ∧ cause = if c = '!' then .bangAlone else .illegal c

theorem toTake_of_isLongest (h : t.IsLongest piece (c :: cs)) : ToTake c cs (.ok (some t, piece.length - 1)) := by
  rw [ToTake, take_of_isLongest h]
  exact h

/-- `munch` skips and takes as it should. -/
theorem toTake_munch (c : Char) (cs : List Char) : ToTake c cs (munch c cs) := by
  unfold munch
  split
  case h_1 | h_2 | h_3 | h_4 | h_5 | h_6 | h_7 =>
    exact isLongest_single (by simp [operators]) rfl (.inl (by decide))
  case h_8 | h_9 | h_10 =>
    split
    · next hcs => exact toTake_of_isLongest (isLongest_double (by simp [operators]) rfl hcs)
    · next hcs => exact toTake_of_isLongest (isLongest_single (by simp [operators]) rfl (.inr hcs))
  case h_11 =>
    split
    · next hcs => exact toTake_of_isLongest (isLongest_double (by simp [operators]) rfl hcs)
    · next hcs => exact ⟨by decide, noneStarts_bang hcs, rfl⟩
  case h_12 hplus hminus hstar hslash hcaret hleft hright hequal hless hgreater hbang =>
    split
    · next hblank => exact ⟨by simpa [isSkipped] using hblank, rfl⟩
    · next hblank =>
      replace hblank : ¬(c = ' ' ∨ c = '\t') := by simpa [isSkipped] using hblank
      have hcause : ScanError.Cause.illegal c = if c = '!' then .bangAlone else .illegal c := (if_neg hbang).symm
      split
      · next hnumber =>
        replace hnumber : c.isDigit ∨ c = '.' := by simpa using hnumber
        dsimp only
        split
        · next v hv => exact toTake_of_isLongest (isLongest_number hnumber hv)
        · next hv => exact ⟨hblank, noneStarts_number hnumber hv, hcause⟩
      · next hnumber =>
        replace hnumber : ¬(c.isDigit ∨ c = '.') := by simpa using hnumber
        split
        · next halpha => exact toTake_of_isLongest (isLongest_word halpha)
        · next halpha =>
          rw [Bool.not_eq_true] at halpha
          refine ⟨hblank, noneStarts_other halpha hnumber ?_, hcause⟩
          intro t ht ds hspelling _
          have hstart := (spelling_of_mem_operators ht hspelling).1
          simp_all [operatorStarts]

end Token
end LineCalc
