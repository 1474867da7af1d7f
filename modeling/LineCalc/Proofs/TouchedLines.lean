import LineCalc.Proofs.SourceTiling
import LineCalc.Report.Excerpt
import Mathlib.Data.List.DropRight
import Mathlib.Data.List.Forall2

/-!
The lines that an excerpt shows. A line of a text is known by the number of newlines before it, and a part of the text
touches the lines that its characters lie on; the numbers of these follow one another, and the excerpt counts them by
the lines and columns of the two ends (`touches_iff`). The lines are found by cutting the text where the line of the
first end starts, which leaves the later pieces as they are (`pieces_fromLineOf`). Under each line stand carets by the
columns of the line before it was trimmed (`draws_row`).
-/

namespace LineCalc

/-! ### Lines of a text -/

theorem Position.line_advanceAll_eq_add (p : Position) (cs : List Char) :
    (p.advanceAll cs).line = p.line + UInt64.ofNat (cs.count '\n') := by
  induction cs generalizing p with
  | nil => exact (UInt64.add_zero _).symm
  | cons c cs ih =>
      rw [advanceAll_cons, ih, advance]
      by_cases h : c = '\n'
      · subst h
        rw [if_pos rfl, List.count_cons_self, UInt64.ofNat_add, UInt64.add_assoc, UInt64.add_comm 1]
        rfl
      · rw [if_neg h, List.count_cons_of_ne h]

/-- Reading on from `p` over `piece`, the line numbers do not wrap, and the lines passed can be counted. -/
structure Position.LinesFit (p : Position) (piece : List Char) : Prop where
  line_lt : p.line.toNat + piece.count '\n' < UInt64.size
  count_lt : piece.count '\n' + 1 < UInt64.size

theorem Position.LinesFit.toNat_line {p : Position} {piece : List Char} (h : p.LinesFit piece) :
    (p.advanceAll piece).line.toNat = p.line.toNat + piece.count '\n' := by
  have hcount : piece.count '\n' < UInt64.size := Nat.lt_of_succ_lt h.count_lt
  rw [line_advanceAll_eq_add, UInt64.toNat_add, UInt64.toNat_ofNat_of_lt' hcount, Nat.mod_eq_of_lt h.line_lt]

theorem Position.linesFit_of_newline_notMem {piece : List Char} (h : '\n' ∉ piece) (p : Position) :
    p.LinesFit piece := by
  have hcount : piece.count '\n' = 0 := List.count_eq_zero.mpr h
  constructor
  · rw [hcount]
    exact p.line.toNat_lt_size
  · rw [hcount]
    decide

/-- The place behind a newline is the start of a line. -/
theorem Position.column_advanceAll_concat (p : Position) (cs : List Char) (c : Char) :
    (p.advanceAll (cs ++ [c])).column = 0 ↔ c = '\n' := by
  rw [advanceAll_append, advanceAll_cons, advanceAll_nil, advance]
  by_cases h : c = '\n' <;> simp [h]

namespace Text

theorem length_pieces (cs : List Char) : (pieces cs).length = cs.count '\n' + 1 := by
  induction cs with
  | nil => rfl
  | cons c cs ih =>
      by_cases h : c = '\n'
      · subst h
        rw [pieces_newline, List.length_cons, ih, List.count_cons_self]
      · rw [pieces_cons h, List.count_cons_of_ne h, ← ih]
        cases hpieces : pieces cs with
        | nil =>
            rw [hpieces] at ih
            cases ih
        | cons p ps => rfl

theorem pieces_append_newline (cs ds : List Char) : pieces (cs ++ '\n' :: ds) = pieces cs ++ pieces ds := by
  induction cs with
  | nil => rfl
  | cons c cs ih =>
      by_cases h : c = '\n'
      · subst h
        rw [List.cons_append, pieces_newline, pieces_newline, ih, List.cons_append]
      · rw [List.cons_append, pieces_cons h, pieces_cons h, ih]
        cases hpieces : pieces cs with
        | nil =>
            have hlength := length_pieces cs
            rw [hpieces] at hlength
            cases hlength
        | cons p ps => rfl

/-- A text is its finished lines, of which the last one ends behind the last newline, and the line begun. -/
theorem exists_lastLine (cs : List Char) :
    ∃ finished line, cs = finished ++ line ∧ '\n' ∉ line ∧ (finished = [] ∨ ∃ ds, finished = ds ++ ['\n']) := by
  induction cs using List.reverseRecOn with
  | nil => exact ⟨[], [], rfl, List.not_mem_nil, .inl rfl⟩
  | append_singleton cs c ih =>
      by_cases h : c = '\n'
      · subst h
        exact ⟨cs ++ ['\n'], [], (List.append_nil _).symm, List.not_mem_nil, .inr ⟨cs, rfl⟩⟩
      · obtain ⟨finished, line, rfl, hline, hfinished⟩ := ih
        refine ⟨finished, line ++ [c], List.append_assoc .., ?_, hfinished⟩
        simp [hline, Ne.symm h]

theorem takeWhile_append_of_newline_notMem {line : List Char} (h : '\n' ∉ line) (cs : List Char) :
    (line ++ cs).takeWhile (· ≠ '\n') = line ++ cs.takeWhile (· ≠ '\n') :=
  List.takeWhile_append_of_pos fun _ hc => decide_eq_true (ne_of_mem_of_not_mem hc h)

/-- The characters that a text has on its last line. -/
def begun (cs : List Char) : List Char := cs.rtakeWhile (· ≠ '\n')

theorem begun_eq {finished line : List Char} (hfinished : finished = [] ∨ ∃ ds, finished = ds ++ ['\n'])
    (hline : '\n' ∉ line) : begun (finished ++ line) = line := by
  have hreverse : '\n' ∉ line.reverse := List.mem_reverse.not.mpr hline
  rw [begun, List.rtakeWhile, List.reverse_append, takeWhile_append_of_newline_notMem hreverse]
  obtain rfl | ⟨ds, rfl⟩ := hfinished <;> simp

/-- Without its finished lines, a text has the pieces behind as many as they are. -/
theorem drop_pieces_append {finished : List Char} (h : finished = [] ∨ ∃ ds, finished = ds ++ ['\n'])
    (cs : List Char) : (pieces (finished ++ cs)).drop (finished.count '\n') = pieces cs := by
  obtain rfl | ⟨ds, rfl⟩ := h
  · rfl
  · have hlength : (ds ++ ['\n']).count '\n' = (pieces ds).length := by
      rw [List.count_append, length_pieces]
      rfl
    rw [List.append_assoc, List.singleton_append, pieces_append_newline, hlength, List.drop_left]

end Text

namespace Excerpt

/-- The excerpt begins with the line in which the span does, which has as many lines before it as there are newlines. -/
theorem pieces_fromLineOf (before cs : List Char) :
    Text.pieces (fromLineOf (before ++ cs) (Text.byteLength before)) =
      (Text.pieces (before ++ cs)).drop (before.count '\n') := by
  obtain ⟨finished, line, rfl, hline, hfinished⟩ := Text.exists_lastLine before
  have hcount : (finished ++ line).count '\n' = finished.count '\n' := by
    rw [List.count_append, List.count_eq_zero.mpr hline, Nat.add_zero]
  have hbegun : (finished ++ line).reverse.takeWhile (· ≠ '\n') = line.reverse := by
    rw [← List.reverse_eq_iff]
    exact Text.begun_eq hfinished hline
  have hlength : (finished ++ line).length - line.reverse.length = finished.length := by simp
  rw [fromLineOf, Text.takeBytes?_append, Option.getD_some, hbegun, hlength, hcount, List.append_assoc,
    List.drop_left, Text.drop_pieces_append hfinished]

/-- The line with this number, counted from zero, holds a character of the part `piece` of a text, which stands behind
`before`. A newline belongs to the line that it ends. An empty part touches the line that it stands in. -/
def Touches (before piece : List Char) (k : Nat) : Prop :=
  (∃ cs c ds, piece = cs ++ c :: ds ∧ (before ++ cs).count '\n' = k) ∨ piece = [] ∧ before.count '\n' = k

/-- The characters of a text lie on all lines from the first one to the last. -/
theorem exists_prefix_count (cs : List Char) (k : Nat) :
    (∃ ds, ds <+: cs ∧ ds.count '\n' = k) ↔ k ≤ cs.count '\n' := by
  constructor
  · rintro ⟨ds, hds, rfl⟩
    exact hds.sublist.count_le _
  · intro hk
    induction cs generalizing k with
    | nil =>
        rw [Nat.le_zero.mp hk]
        exact ⟨[], List.nil_prefix, rfl⟩
    | cons c cs ih =>
        cases k with
        | zero => exact ⟨[], List.nil_prefix, rfl⟩
        | succ k =>
            by_cases h : c = '\n'
            · subst h
              rw [List.count_cons_self] at hk
              obtain ⟨ds, hds, hcount⟩ := ih k (Nat.le_of_succ_le_succ hk)
              refine ⟨'\n' :: ds, List.cons_prefix_cons.mpr ⟨rfl, hds⟩, ?_⟩
              rw [List.count_cons_self, hcount]
            · rw [List.count_cons_of_ne h] at hk
              obtain ⟨ds, hds, hcount⟩ := ih (k + 1) hk
              refine ⟨c :: ds, List.cons_prefix_cons.mpr ⟨rfl, hds⟩, ?_⟩
              rw [List.count_cons_of_ne h, hcount]

theorem prefix_iff_exists_cons {cs ds : List Char} {c : Char} : ds <+: cs ↔ ∃ d es, cs ++ [c] = ds ++ d :: es := by
  constructor
  · rintro ⟨es, rfl⟩
    obtain ⟨d, fs, h⟩ := List.exists_cons_of_ne_nil (show es ++ [c] ≠ [] by simp)
    exact ⟨d, fs, by rw [List.append_assoc, h]⟩
  · rintro ⟨d, es, h⟩
    have hprefix : ds ++ [d] <+: cs ++ [c] := ⟨es, by rw [h, List.append_assoc, List.singleton_append]⟩
    obtain h | h := List.prefix_concat_iff.mp hprefix
    · rw [List.append_inj_left' h rfl]
    · exact (List.prefix_append ds [d]).trans h

theorem touches_append_singleton {before cs : List Char} {c : Char} {k : Nat} :
    Touches before (cs ++ [c]) k ↔ before.count '\n' ≤ k ∧ k < before.count '\n' + (cs.count '\n' + 1) := by
  constructor
  · rintro (⟨ds, d, es, hpiece, rfl⟩ | ⟨hnil, _⟩)
    · have hds : ds <+: cs := prefix_iff_exists_cons.mpr ⟨d, es, hpiece⟩
      have hcount := hds.sublist.count_le '\n'
      rw [List.count_append]
      omega
    · simp at hnil
  · rintro ⟨hlow, hhigh⟩
    obtain ⟨ds, hds, hcount⟩ := (exists_prefix_count cs (k - before.count '\n')).mpr (by omega)
    obtain ⟨d, es, hpiece⟩ := prefix_iff_exists_cons.mp hds
    refine .inl ⟨ds, d, es, hpiece, ?_⟩
    rw [List.count_append, hcount]
    omega

variable {p : Position} {before piece : List Char} {k : Nat}

/-- As many lines as there are newlines, and one more unless the part ends behind a newline. -/
theorem lineCount_eq (h : p.LinesFit piece) : lineCount ⟨p, p.advanceAll piece⟩ =
    if 0 < piece.count '\n' ∧ (p.advanceAll piece).column = 0 then piece.count '\n' else piece.count '\n' + 1 := by
  have hcount : piece.count '\n' < UInt64.size := Nat.lt_of_succ_lt h.count_lt
  have hlines : (UInt64.ofNat (piece.count '\n') + 1).toNat = piece.count '\n' + 1 := by
    rw [UInt64.toNat_add, UInt64.toNat_ofNat_of_lt' hcount]
    exact Nat.mod_eq_of_lt h.count_lt
  have hmore : 1 < UInt64.ofNat (piece.count '\n') + 1 ↔ 0 < piece.count '\n' := by
    rw [UInt64.lt_iff_toNat_lt, hlines]
    exact Nat.succ_lt_succ_iff
  simp only [lineCount, h.toNat_line, Nat.add_sub_cancel_left, hmore, hlines, Nat.add_sub_cancel]

theorem lineCount_append_singleton {cs : List Char} {c : Char} (h : p.LinesFit (cs ++ [c])) :
    lineCount ⟨p, p.advanceAll (cs ++ [c])⟩ = cs.count '\n' + 1 := by
  rw [lineCount_eq h]
  simp only [Position.column_advanceAll_concat, List.count_append]
  by_cases hc : c = '\n'
  · simp [hc]
  · simp [hc]

/-- The lines touched are those that the excerpt counts, and follow one another. -/
theorem touches_iff (h : p.LinesFit piece) : Touches before piece k ↔
    before.count '\n' ≤ k ∧ k < before.count '\n' + lineCount ⟨p, p.advanceAll piece⟩ := by
  cases piece using List.reverseRecOn with
  | nil =>
      have hone : lineCount ⟨p, p⟩ = 1 := by simpa using lineCount_eq h
      rw [Position.advanceAll_nil, hone]
      constructor
      · rintro (⟨cs, c, ds, hnil, _⟩ | ⟨_, rfl⟩)
        · simp at hnil
        · exact ⟨Nat.le_refl _, Nat.lt_succ_self _⟩
      · rintro ⟨hlow, hhigh⟩
        exact .inr ⟨rfl, by omega⟩
  | append_singleton cs c => rw [lineCount_append_singleton h, touches_append_singleton]

/-! ### Rows -/

/-- A line, cut into the blanks that it starts with, what is shown of it, and the carriage returns that it ends with. -/
structure Cut (line blanks shown returns : List Char) : Prop where
  line_eq : line = (blanks ++ shown) ++ returns
  eq_of_mem_returns : ∀ c ∈ returns, c = '\r'
  getLast?_ne : (blanks ++ shown).getLast? ≠ some '\r'
  isBlank_of_mem : ∀ c ∈ blanks, Text.isBlank c = true
  not_isBlank_head : ∀ c ∈ shown.head?, Text.isBlank c = false

theorem cut_trimStart (line : List Char) :
    let kept := Text.dropEndWhile (· == '\r') line
    Cut line (kept.takeWhile Text.isBlank) (Text.trimStart kept) (line.reverse.takeWhile (· == '\r')).reverse := by
  intro kept
  have hkept : kept = (line.reverse.dropWhile (· == '\r')).reverse := rfl
  have hparts : kept.takeWhile Text.isBlank ++ Text.trimStart kept = kept := List.takeWhile_append_dropWhile
  constructor
  · rw [hparts, hkept, ← List.reverse_append, List.takeWhile_append_dropWhile, List.reverse_reverse]
  · intro c hc
    have hreturn := List.mem_takeWhile_imp (List.mem_reverse.mp hc)
    exact beq_iff_eq.mp hreturn
  · intro hlast
    have hnot := List.head?_dropWhile_not (· == '\r') line.reverse
    rw [hparts, hkept, List.getLast?_reverse] at hlast
    rw [hlast] at hnot
    cases hnot
  · intro c hc
    exact List.mem_takeWhile_imp hc
  · intro c hc
    have hnot := List.head?_dropWhile_not Text.isBlank kept
    have hc : (kept.dropWhile Text.isBlank).head? = some c := hc
    rwa [hc] at hnot

/-- Carets in the columns of a line from `first` up to but excluding `last`, and blanks before them, if the row starts
at the column `indent` of the line. -/
def Underlines (row : List Char) (indent first last : Nat) : Prop :=
  ∀ j, row[j]? = if indent + j < first then some ' ' else if indent + j < last then some '^' else none

theorem underlines_replicate (indent first last : Nat) :
    let start := first - indent
    let stop := max (last - indent) (start + 1)
    Underlines (List.replicate start ' ' ++ List.replicate (stop - start) '^') indent (max first indent)
      (max last (max first indent + 1)) := by
  intro start stop j
  rw [List.getElem?_append, List.getElem?_replicate, List.getElem?_replicate, List.length_replicate]
  by_cases hstart : j < start
  · rw [if_pos hstart, if_pos hstart, if_pos (by omega)]
  · rw [if_neg hstart, if_neg (show ¬indent + j < max first indent by omega)]
    by_cases hstop : j < stop
    · rw [if_pos (by omega), if_pos (by omega)]
    · rw [if_neg (by omega), if_neg (by omega)]

/-- What is shown of the line with the number `k`, and its carets, for the part of a text from `p` to `q` that lies on
the lines from `first` to `last`. The carets run from the column of `p` on the first of these lines, and from 0 on the
others, to the column of `q` on the last one, and to the end of what is not a carriage return on the others. There are
none under the blanks that are not shown, and there is one at least. -/
def Draws (p q : Position) (first last k : Nat) (line row : List Char) : Prop :=
  ∃ blanks shown returns carets, Cut line blanks shown returns ∧ row = shown ++ '\n' :: carets ∧
    let start := max (if k = first then p.column else 0) blanks.length
    let stop := max (if k = last then q.column else (blanks ++ shown).length) (start + 1)
    Underlines carets blanks.length start stop

theorem lineCount_le (h : p.LinesFit piece) : lineCount ⟨p, p.advanceAll piece⟩ ≤ piece.count '\n' + 1 := by
  rw [lineCount_eq h]
  split <;> omega

theorem draws_row (h : p.LinesFit piece) (first i : Nat) (line : List Char)
    (hi : i < lineCount ⟨p, p.advanceAll piece⟩) :
    Draws p (p.advanceAll piece) first (first + piece.count '\n') (first + i) line
      (row ⟨p, p.advanceAll piece⟩ i line) := by
  have hcount := lineCount_le h
  refine ⟨_, _, _, _, cut_trimStart line, List.append_assoc .., ?_⟩
  generalize Text.dropEndWhile (· == '\r') line = kept
  have hparts : kept.takeWhile Text.isBlank ++ Text.trimStart kept = kept := List.takeWhile_append_dropWhile
  have hindent : kept.length - (Text.trimStart kept).length = (kept.takeWhile Text.isBlank).length := by
    have hlength := congrArg List.length hparts
    rw [List.length_append] at hlength
    omega
  have hfirst : first + i = first ↔ i = 0 := by omega
  have hlast : (i + 1 < lineCount ⟨p, p.advanceAll piece⟩ ∨ p.line.toNat + i < p.line.toNat + piece.count '\n') ↔
      ¬first + i = first + piece.count '\n' := by omega
  simp only [h.toNat_line, hparts, hindent, hfirst, hlast, ite_not]
  exact underlines_replicate _ _ _

/-- The rows of an excerpt, line by line. -/
theorem draws_rows (h : p.LinesFit piece) (hp : p.offset = Text.byteLength before) (after : List Char) :
    let text := before ++ (piece ++ after)
    let span : Span := ⟨p, p.advanceAll piece⟩
    let touched := (Text.pieces (fromLineOf text p.offset)).take (lineCount span)
    List.Forall₂ (fun k row => ∃ line, (Text.pieces text)[k]? = some line ∧
        Draws p (p.advanceAll piece) (before.count '\n') (before.count '\n' + piece.count '\n') k line row)
      (List.range' (before.count '\n') (lineCount span)) (touched.zipIdx.map fun (line, i) => row span i line) := by
  intro text span touched
  have hcount : lineCount span ≤ piece.count '\n' + 1 := lineCount_le h
  have htouched : touched = ((Text.pieces text).drop (before.count '\n')).take (lineCount span) := by
    rw [← pieces_fromLineOf, ← hp]
  have hlength : touched.length = lineCount span := by
    rw [htouched, List.length_take, List.length_drop, Text.length_pieces, List.count_append, List.count_append]
    omega
  refine List.forall₂_iff_get.mpr ⟨?_, ?_⟩
  · rw [List.length_range', List.length_map, List.length_zipIdx, hlength]
  · intro i hi _
    rw [List.length_range'] at hi
    have hin : i < touched.length := hlength ▸ hi
    have hline : (Text.pieces text)[before.count '\n' + i]? = some touched[i] := by
      rw [← List.getElem?_drop, ← List.getElem?_take_of_lt hi, ← htouched, List.getElem?_eq_getElem hin]
    refine ⟨touched[i], ?_, ?_⟩
    · simpa using hline
    · simpa using draws_row h (before.count '\n') i touched[i] hi

/-- The excerpt of a text for the part `piece` of it, which stands behind `before`, shows the lines that the part
touches, in order and no others, each with its carets under it. -/
def ShowsTouched (firstLine : UInt64) (before piece after : List Char) : Prop :=
  let text := before ++ (piece ++ after)
  let p := (⟨0, firstLine, 0⟩ : Position).advanceAll before
  let q := (⟨0, firstLine, 0⟩ : Position).advanceAll (before ++ piece)
  ∃ numbers rows, numbers.Pairwise (· < ·) ∧ (∀ k, k ∈ numbers ↔ Touches before piece k) ∧
    List.Forall₂ (fun k row => ∃ line, (Text.pieces text)[k]? = some line ∧
      Draws p q (before.count '\n') ((before ++ piece).count '\n') k line row) numbers rows ∧
    ofText (String.ofList text) ⟨p, q⟩ = String.ofList (['\n'].intercalate rows)

/-- An excerpt shows the lines touched, wherever the text starts, unless the line numbers wrap inside the part. -/
theorem touched_lines {firstLine : UInt64} {before piece : List Char}
    (hfits : ((⟨0, firstLine, 0⟩ : Position).advanceAll before).LinesFit piece) (after : List Char) :
    ShowsTouched firstLine before piece after := by
  unfold ShowsTouched
  intro text p q
  have hq : q = p.advanceAll piece := Position.advanceAll_append ..
  have hp : p.offset = Text.byteLength before := by rw [Position.offset_advanceAll, Nat.zero_add]
  rw [hq, List.count_append]
  refine ⟨_, _, List.pairwise_lt_range' .., ?_, draws_rows hfits hp after, ?_⟩
  · intro k
    rw [List.mem_range'_1, touches_iff hfits]
  · rw [ofText, String.toList_ofList]

/-- The second of the lines has the greatest number that there is. -/
theorem touched_lines_greatest :
    (⟨0, 18446744073709551614, 0⟩ : Position).LinesFit ['a', '\n', 'b'] ∧
      (⟨0, 18446744073709551614, 0⟩ : Position).advanceAll ['a', '\n', 'b'] = ⟨3, 18446744073709551615, 1⟩ ∧
      ShowsTouched 18446744073709551614 [] ['a', '\n', 'b'] [] := by
  have hfits : ((⟨0, 18446744073709551614, 0⟩ : Position).advanceAll []).LinesFit ['a', '\n', 'b'] :=
    ⟨by decide, by decide⟩
  exact ⟨hfits, by decide, touched_lines hfits []⟩

/-- Where the line numbers wrap, an excerpt leaves out the lines behind the greatest number. -/
theorem not_showsTouched :
    ¬∀ (firstLine : UInt64) (before piece after : List Char), ShowsTouched firstLine before piece after := by
  intro h
  obtain ⟨numbers, rows, _, hnumbers, hrows, hexcerpt⟩ := h 18446744073709551615 [] ['a', '\n', 'b'] []
  have hfirst : 0 ∈ numbers := (hnumbers 0).mpr (.inl ⟨[], 'a', ['\n', 'b'], rfl, rfl⟩)
  have hsecond : 1 ∈ numbers := (hnumbers 1).mpr (.inl ⟨['a', '\n'], 'b', [], rfl, rfl⟩)
  have hshown : ofText "a\nb" ⟨⟨0, 18446744073709551615, 0⟩, ⟨3, 0, 1⟩⟩ = String.ofList ['a', '\n', '^'] := by cbv
  have hchars : ['a', '\n', '^'] = ['\n'].intercalate rows := String.ofList_injective (hshown.symm.trans hexcerpt)
  cases hrows with
  | nil => cases hfirst
  | cons hrow hmore =>
      cases hmore with
      | nil =>
          rw [List.mem_singleton] at hfirst hsecond
          exact absurd (hfirst.trans hsecond.symm) (by decide)
      | cons =>
          -- two rows have a newline between them, and one of their own each
          obtain ⟨_, _, _, shown, _, carets, _, rfl, _⟩ := hrow
          have hcount := congrArg (List.count '\n') hchars
          have hone : ['a', '\n', '^'].count '\n' = 1 := rfl
          simp only [hone, List.intercalate_cons_cons, List.count_append, List.count_cons_self] at hcount
          omega

/-- From the newline of the first line into the second one, of which two blanks are not shown. -/
example : ofText "a\n  bc\n" ⟨⟨1, 0, 1⟩, ⟨6, 1, 4⟩⟩ = "a\n ^\nbc\n^^" := by cbv

end Excerpt
end LineCalc
