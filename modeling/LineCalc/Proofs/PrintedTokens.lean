import LineCalc.Proofs.PrintedExpression

/-!
Printing tokens and scanning them back. What is printed for a token is one of its spellings (`IsPrintable.spelledBy`),
and no spelling goes on with a blank. So a text of printed tokens with blanks between them is cut into the tokens that
it was put together from, whichever they are and however many (`scan_spaced`).
-/

namespace LineCalc.Token

/-- The tokens whose text is one of their spellings: no sign stands before a number, and a double is written with digits
on both sides of its point. -/
def IsPrintable : Token → Prop
  | number (.int n) => 0 ≤ n
  | number (.float x) =>
    ∃ whole fraction, (Num.float x).literalText.toList = whole ++ '.' :: fraction ∧ IsDigits whole ∧ IsDigits fraction
  | identifier x => IsName x
  | eof => False
  | _ => True

/-- The texts of the tokens, with one blank or more between any two. -/
inductive Spaced : List Token → List Char → Prop
  | nil : Spaced [] []
  | last (t) : Spaced [t] t.spelling.toList
  | cons (t) {u ts gap cs} (hgap : gap ≠ []) (hspace : ∀ c ∈ gap, IsSpace c) (hmore : Spaced (u :: ts) cs) :
      Spaced (t :: u :: ts) (t.spelling.toList ++ (gap ++ cs))

variable {p q : Position} {t : Token} {tokens : List Token} {cs ds gap piece : List Char} {ls : List Lexeme}

/-! ### Spellings -/

/-- The text of a double spells it if it is the text of a number that reads as that double. -/
theorem spelledBy_float {x : Float} (h : (number (.float x)).IsPrintable)
    (hreads : (Numeral.ofChars (Num.float x).literalText.toList).num? = some (.float x)) :
    (number (.float x)).SpelledBy (Num.float x).literalText.toList := by
  obtain ⟨whole, fraction, htext, hwhole, hfraction⟩ := h
  have hdigits : (⟨whole, some fraction⟩ : Numeral).AllDigits := ⟨hwhole.2, by simpa using hfraction.2⟩
  rw [htext] at hreads ⊢
  have hnumeral : Numeral.ofChars (whole ++ '.' :: fraction) = ⟨whole, some fraction⟩ := Numeral.ofChars_chars hdigits
  rw [hnumeral] at hreads
  exact spelledBy_number hdigits (by simp [Numeral.chars]) hreads

theorem IsPrintable.spelledBy (h : t.IsPrintable)
    (hreads : ∀ x, t = number (.float x) →
      (Numeral.ofChars (Num.float x).literalText.toList).num? = some (.float x)) :
    t.SpelledBy t.spelling.toList := by
  cases t with
  | number n =>
      cases n with
      | int n => exact spelledBy_literalText h
      | float x => exact spelledBy_float h (hreads x rfl)
  | identifier x => exact IsName.spelledBy h
  | keyword k => exact .keyword k
  | eof => exact h.elim
  | _ => exact .operator (by simp [operators])

/-! ### Blanks between tokens -/

theorem not_mem_tail_of_isSpace {c : Char} (h : IsSpace c) : ¬(isWordChar c ∨ c = '.' ∨ c = '=') := by
  obtain rfl | rfl := h <;> decide

namespace Cuts

theorem skipAll (hspace : ∀ c ∈ gap, IsSpace c) (h : Cuts (p.advanceAll gap) cs ls q ds) :
    Cuts p (gap ++ cs) ls q ds := by
  induction gap generalizing p with
  | nil => exact h
  | cons c gap ih =>
      have hmore : ∀ d ∈ gap, IsSpace d := fun d hd => hspace d (List.mem_cons_of_mem c hd)
      exact .skip (hspace c List.mem_cons_self) (ih hmore h)

/-- A token, the blanks behind it, and what follows. -/
theorem spaced (h : t.SpelledBy piece) (hgap : gap ≠ []) (hspace : ∀ c ∈ gap, IsSpace c)
    (hmore : Cuts ((p.advanceAll piece).advanceAll gap) cs ls q ds) :
    Cuts p (piece ++ (gap ++ cs)) (⟨t, p, p.advanceAll piece⟩ :: ls) q ds := by
  refine .take (h.isLongest_of_head? ?_) (skipAll hspace hmore)
  intro c hc
  rw [List.head?_append_of_ne_nil _ hgap] at hc
  exact not_mem_tail_of_isSpace (hspace c (List.mem_of_mem_head? hc))

end Cuts

theorem Spaced.cuts (h : Spaced tokens cs) (htokens : ∀ t ∈ tokens, t.SpelledBy t.spelling.toList) (p : Position) :
    ∃ ls q, Cuts p cs ls q [] ∧ ls.map (·.value) = tokens := by
  induction h generalizing p with
  | nil => exact ⟨[], p, .here, rfl⟩
  | last t =>
      have hlongest : t.IsLongest _ (t.spelling.toList ++ []) := (htokens t List.mem_cons_self).isLongest_of_head? nofun
      have hall := Cuts.take (p := p) hlongest .here
      rw [List.append_nil] at hall
      exact ⟨_, _, hall, rfl⟩
  | cons t hgap hspace _ ih =>
      obtain ⟨ls, q, hcuts, hls⟩ := ih (fun u hu => htokens u (List.mem_cons_of_mem t hu)) _
      exact ⟨_, q, .spaced (htokens t List.mem_cons_self) hgap hspace hcuts, congrArg (t :: ·) hls⟩

/-- Scanning undoes the printing of tokens. Print any tokens that have no sign, put spaces and tabs between them, and
scan the text: what comes back are these tokens, and the end token. It is assumed of the doubles among them that the
text of each reads as that double. -/
theorem scan_spaced {text : String} (htext : Spaced tokens text.toList) (htokens : ∀ t ∈ tokens, t.IsPrintable)
    (hreads : ∀ x, number (.float x) ∈ tokens →
      (Numeral.ofChars (Num.float x).literalText.toList).num? = some (.float x)) (start : Position) :
    ∃ lexemes, scan start text = .ok lexemes ∧ lexemes.map (·.value) = tokens ++ [eof] := by
  have hspelled : ∀ t ∈ tokens, t.SpelledBy t.spelling.toList := by
    intro t ht
    refine (htokens t ht).spelledBy ?_
    rintro x rfl
    exact hreads x ht
  obtain ⟨ls, q, hcuts, hls⟩ := htext.cuts hspelled { start with offset := 0 }
  exact ⟨_, hcuts.of_toEnd, by rw [List.map_append, hls]; rfl⟩

theorem scan_spaced_tabs :
    let tokens : List Token := [.number (.float 2.5), .bangEqual, .identifier "NOT1"]
    Spaced tokens "2.5\t!= \tNOT1".toList ∧ (∀ t ∈ tokens, t.IsPrintable) ∧
      ∃ lexemes, scan {} "2.5\t!= \tNOT1" = .ok lexemes ∧ lexemes.map (·.value) = tokens ++ [eof] := by
  intro tokens
  have htext : (Num.float 2.5).literalText.toList = ['2'] ++ '.' :: ['5'] := by decide +kernel
  have hreads : (Numeral.ofChars (Num.float 2.5).literalText.toList).num? = some (.float 2.5) := by decide +kernel
  have hname : IsName "NOT1" := ⟨'N', ['O', 'T', '1'], rfl, rfl, by simp, fun k => by cases k <;> decide⟩
  have hspaced : Spaced tokens ((Num.float 2.5).literalText.toList ++ (['\t'] ++ (['!', '='] ++ ([' ', '\t'] ++
      "NOT1".toList)))) :=
    .cons _ (List.cons_ne_nil _ _) (by simp [IsSpace])
      (.cons _ (List.cons_ne_nil _ _) (by simp [IsSpace]) (.last _))
  rw [htext] at hspaced
  have htokens : ∀ t ∈ tokens, t.IsPrintable := by
    simp only [tokens, List.forall_mem_cons]
    exact ⟨⟨_, _, htext, ⟨by simp, by simp⟩, ⟨by simp, by simp⟩⟩, trivial, hname, nofun⟩
  refine ⟨hspaced, htokens, scan_spaced hspaced htokens ?_ {}⟩
  intro x hx
  obtain rfl : x = 2.5 := by simpa [tokens] using hx
  exact hreads

end LineCalc.Token
