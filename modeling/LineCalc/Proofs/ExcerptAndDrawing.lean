import LineCalc.Proofs.FailurePlace
import LineCalc.Proofs.TouchedLines
import LineCalc.Report.Drawing

/-!
What the two pictures of a failed run point at: the excerpt with its carets, by columns of a line of which the blanks at
the start are not shown, and the drawing, by numbers of characters in the text. The span of a report marks a part of
the text, and the drawing underlines that part. The excerpt of a part that lies on one line is this line with one line
of carets, which start at the part or where the shown text starts, whichever comes later; so they stand under the part
exactly if neither trimming nor a line end takes any of it (`Excerpt.Hides`, `Excerpt.pointsAt_ofText_iff`). A text that
scans has no such parts to report. What is left is a failed scan, and there is one that the excerpt gets wrong: at a
blank which is not skipped and which its line starts with, the caret stands under the next character that is shown
(`Session.excerpt_not_points_at`).
-/

namespace LineCalc

theorem Position.column_advanceAll {cs : List Char} (h : '\n' ∉ cs) (p : Position) :
    (p.advanceAll cs).column = p.column + cs.length := by
  induction cs generalizing p with
  | nil => rfl
  | cons c cs ih =>
      rw [List.mem_cons, not_or] at h
      rw [advanceAll_cons, ih h.2, advance, if_neg (Ne.symm h.1), List.length_cons, Nat.add_assoc, Nat.add_comm 1]

namespace Text

theorem head?_pieces (cs : List Char) : (pieces cs).head? = some (cs.takeWhile (· ≠ '\n')) := by
  induction cs with
  | nil => rfl
  | cons c cs ih =>
      by_cases h : c = '\n'
      · subst h
        rfl
      · obtain ⟨more, hmore⟩ := List.head?_eq_some_iff.mp ih
        have hc : decide (c ≠ '\n') = true := decide_eq_true h
        rw [pieces_cons h, hmore, List.takeWhile_cons, if_pos hc]
        rfl

/-- The line in which a part of a text begins. -/
theorem getElem?_pieces (before cs : List Char) :
    (pieces (before ++ cs))[before.count '\n']? = some (begun before ++ cs.takeWhile (· ≠ '\n')) := by
  obtain ⟨finished, line, rfl, hline, hfinished⟩ := exists_lastLine before
  have hcount : (finished ++ line).count '\n' = finished.count '\n' := by
    rw [List.count_append, List.count_eq_zero.mpr hline, Nat.add_zero]
  rw [begun_eq hfinished hline, hcount, List.append_assoc, ← Nat.add_zero (finished.count '\n'), ← List.getElem?_drop,
    drop_pieces_append hfinished, ← List.head?_eq_getElem?, head?_pieces, takeWhile_append_of_newline_notMem hline]

theorem newline_notMem_begun (cs : List Char) : '\n' ∉ begun cs := by
  intro h
  have hne := List.mem_rtakeWhile_imp h
  simp at hne

end Text

theorem Position.column_eq_begun (firstLine : UInt64) (before : List Char) :
    ((⟨0, firstLine, 0⟩ : Position).advanceAll before).column = (Text.begun before).length := by
  obtain ⟨finished, line, rfl, hline, hfinished⟩ := Text.exists_lastLine before
  rw [Text.begun_eq hfinished hline, advanceAll_append, column_advanceAll hline]
  obtain rfl | ⟨ds, rfl⟩ := hfinished
  · rw [advanceAll_nil, Nat.zero_add]
  · rw [(column_advanceAll_concat _ ds '\n').mpr rfl, Nat.zero_add]

namespace Excerpt

variable {before piece after blanks shown returns line rest : List Char}

theorem lineCount_of_newline_notMem (hpiece : '\n' ∉ piece) (p : Position) :
    lineCount ⟨p, p.advanceAll piece⟩ = 1 := by
  rw [lineCount_eq (Position.linesFit_of_newline_notMem hpiece p), List.count_eq_zero.mpr hpiece]
  rfl

/-- The excerpt for a part of one line is that line, and the carets under it. -/
theorem ofText_of_newline_notMem (firstLine : UInt64) (before : List Char) (hpiece : '\n' ∉ piece) (after : List Char) :
    let p := (⟨0, firstLine, 0⟩ : Position).advanceAll before
    let q := (⟨0, firstLine, 0⟩ : Position).advanceAll (before ++ piece)
    ∃ blanks shown returns carets,
      Cut (Text.begun before ++ (piece ++ after.takeWhile (· ≠ '\n'))) blanks shown returns ∧
      ofText (String.ofList (before ++ (piece ++ after))) ⟨p, q⟩ = String.ofList (shown ++ '\n' :: carets) ∧
      let start := max (Text.begun before).length blanks.length
      let stop := max ((Text.begun before).length + piece.length) (start + 1)
      Underlines carets blanks.length start stop := by
  intro p q
  have hq : q = p.advanceAll piece := Position.advanceAll_append ..
  have hp : p.offset = Text.byteLength before := by rw [Position.offset_advanceAll, Nat.zero_add]
  have hrows := draws_rows (Position.linesFit_of_newline_notMem hpiece p) hp after
  have hcount := lineCount_of_newline_notMem hpiece p
  simp only [hcount, List.range'_one, List.forall₂_cons_left_iff, List.forall₂_nil_left_iff] at hrows
  obtain ⟨row, _, ⟨line, hline, hdraws⟩, rfl, hall⟩ := hrows
  rw [Text.getElem?_pieces, Text.takeWhile_append_of_newline_notMem hpiece, Option.some_inj] at hline
  subst hline
  obtain ⟨blanks, shown, returns, carets, hcut, rfl, hcarets⟩ := hdraws
  refine ⟨blanks, shown, returns, carets, hcut, ?_, ?_⟩
  · rw [hq, ofText, String.toList_ofList, hcount, hall, List.intercalate_singleton]
  · rwa [List.count_eq_zero.mpr hpiece, Nat.add_zero, if_pos rfl, if_pos rfl, Position.column_advanceAll hpiece,
      Position.column_eq_begun] at hcarets

/-! ### What the carets stand under -/

/-- A part of a text of which an excerpt does not show all: it holds a line end, or its last character is one of the
carriage returns that end its line, or its first character is one of the blanks that its line starts with. -/
inductive Hides (before piece after : List Char) : Prop
  | newline (hpiece : '\n' ∈ piece)
  | returns (hpiece : piece.getLast? = some '\r') (hafter : ∀ c ∈ after.takeWhile (· ≠ '\n'), c = '\r')
  | blanks {c} (hpiece : piece.head? = some c) (hblank : Text.isBlank c = true)
      (hbefore : ∀ d ∈ Text.begun before, Text.isBlank d = true)

/-- The excerpt is a line and one line of carets, and the characters above the carets are `piece`. -/
def PointsAt (excerpt : String) (piece : List Char) : Prop :=
  ∃ left right, '\n' ∉ left ++ (piece ++ right) ∧ excerpt = String.ofList
    (left ++ (piece ++ right) ++ '\n' :: (List.replicate left.length ' ' ++ List.replicate piece.length '^'))

theorem Underlines.eq_replicate {row : List Char} {indent first last : Nat} (h : Underlines row indent first last)
    (hfirst : indent ≤ first) (hlast : first ≤ last) :
    row = List.replicate (first - indent) ' ' ++ List.replicate (last - first) '^' := by
  apply List.ext_getElem?
  intro j
  rw [h j, List.getElem?_append, List.getElem?_replicate, List.getElem?_replicate, List.length_replicate]
  by_cases hblank : indent + j < first
  · rw [if_pos hblank, if_pos (by omega), if_pos (by omega)]
  · rw [if_neg hblank, if_neg (show ¬j < first - indent by omega)]
    by_cases hcaret : indent + j < last
    · rw [if_pos hcaret, if_pos (by omega)]
    · rw [if_neg hcaret, if_neg (by omega)]

theorem replicate_append_replicate_inj {a b a' b' : Nat} :
    List.replicate a ' ' ++ List.replicate b '^' = List.replicate a' ' ' ++ List.replicate b' '^' ↔
      a = a' ∧ b = b' := by
  constructor
  · intro h
    have hblanks := congrArg (List.count ' ') h
    have hcarets := congrArg (List.count '^') h
    simp [List.count_replicate] at hblanks hcarets
    exact ⟨hblanks, hcarets⟩
  · rintro ⟨rfl, rfl⟩
    rfl

/-- Where the carets stand, as a number of blanks and a number of carets. -/
theorem pointsAt_iff {a b : Nat} (hshown : '\n' ∉ shown) :
    PointsAt (String.ofList (shown ++ '\n' :: (List.replicate a ' ' ++ List.replicate b '^'))) piece ↔
      ∃ left right, shown = left ++ (piece ++ right) ∧ left.length = a ∧ piece.length = b := by
  have hrow : ∀ a b : Nat, '\n' ∉ List.replicate a ' ' ++ List.replicate b '^' := by simp
  constructor
  · rintro ⟨left, right, hline, hexcerpt⟩
    rw [String.ofList_inj, List.append_cons_inj_of_notMem hshown (hrow a b)] at hexcerpt
    obtain ⟨hleft, hpiece⟩ := replicate_append_replicate_inj.mp hexcerpt.2.2
    exact ⟨left, right, hexcerpt.1, hleft.symm, hpiece.symm⟩
  · rintro ⟨left, right, rfl, rfl, rfl⟩
    exact ⟨left, right, hshown, rfl⟩

namespace Cut

variable {begun : List Char} {c : Char}

theorem kept_prefix (h : Cut line blanks shown returns) : blanks ++ shown <+: line := ⟨returns, h.line_eq.symm⟩

theorem blanks_prefix (h : Cut line blanks shown returns) : blanks <+: line :=
  (List.prefix_append blanks shown).trans h.kept_prefix

/-- The start of a line is kept unless it ends among the carriage returns. -/
theorem prefix_kept_iff (h : Cut (begun ++ rest) blanks shown returns) :
    begun <+: blanks ++ shown ↔ ¬(begun.getLast? = some '\r' ∧ ∀ c ∈ rest, c = '\r') := by
  constructor
  · rintro ⟨more, hmore⟩ ⟨hlast, hrest⟩
    have hline := h.line_eq
    rw [← hmore, List.append_assoc, List.append_right_inj] at hline
    refine h.getLast?_ne ?_
    cases more using List.reverseRecOn with
    | nil => rw [← hmore, List.append_nil, hlast]
    | append_singleton more c =>
        rw [← hmore, ← List.append_assoc, List.getLast?_concat, hrest c (by rw [hline]; simp)]
  · intro hreturn
    obtain hle | ⟨cut, hcut⟩ := List.prefix_or_prefix_of_prefix (List.prefix_append begun rest) h.kept_prefix
    · exact hle
    cases cut using List.reverseRecOn with
    | nil => rw [← hcut, List.append_nil]
    | append_singleton cut c =>
        have hreturns := h.line_eq
        rw [← hcut, List.append_assoc, List.append_right_inj] at hreturns
        have hall := h.eq_of_mem_returns
        rw [← hreturns] at hall
        refine absurd ⟨?_, fun d hd => hall d (List.mem_append_right _ hd)⟩ hreturn
        rw [← hcut, ← List.append_assoc, List.getLast?_concat, hall c (by simp)]

/-- The blanks that are not shown end in front of a character of what is kept unless this is one of them. -/
theorem blanks_prefix_iff (h : Cut line blanks shown returns) (hkept : begun ++ [c] <+: blanks ++ shown) :
    blanks <+: begun ↔ ¬(Text.isBlank c = true ∧ ∀ d ∈ begun, Text.isBlank d = true) := by
  obtain ⟨more, hmore⟩ := hkept
  rw [List.append_assoc] at hmore
  constructor
  · rintro ⟨left, rfl⟩ ⟨hc, hbegun⟩
    rw [List.append_assoc, List.append_right_inj] at hmore
    cases left with
    | nil =>
        have hhead := h.not_isBlank_head c (by rw [← hmore]; rfl)
        rw [hc] at hhead
        cases hhead
    | cons d left =>
        have hhead := h.not_isBlank_head d (by rw [← hmore]; rfl)
        rw [hbegun d (by simp)] at hhead
        cases hhead
  · intro hblank
    obtain hle | ⟨cut, rfl⟩ := List.prefix_or_prefix_of_prefix (List.prefix_append blanks shown)
      (hmore ▸ List.prefix_append begun _)
    · exact hle
    cases cut with
    | nil => rw [List.append_nil]
    | cons d cut =>
        rw [List.append_assoc, List.append_right_inj] at hmore
        obtain rfl : c = d := (List.cons.inj hmore).1
        refine absurd ⟨?_, fun d hd => ?_⟩ hblank
        · exact h.isBlank_of_mem c (by simp)
        · exact h.isBlank_of_mem d (List.mem_append_left _ hd)

end Cut

/-- The carets stand under a part if all of it is kept and the blanks that are not shown end in front of it. -/
theorem Cut.under_iff {begun : List Char} (h : Cut (begun ++ (piece ++ rest)) blanks shown returns)
    (hpiece : piece ≠ []) :
    let start := max begun.length blanks.length
    (∃ left right, shown = left ++ (piece ++ right) ∧ left.length = start - blanks.length ∧
        piece.length = max (begun.length + piece.length) (start + 1) - start) ↔
      begun ++ piece <+: blanks ++ shown ∧ blanks <+: begun := by
  intro start
  obtain ⟨c, ds, rfl⟩ := List.exists_cons_of_ne_nil hpiece
  constructor
  · rintro ⟨left, right, hshown, hleft, hlength⟩
    have hkept : begun ++ c :: ds <+: blanks ++ shown := by
      refine List.prefix_of_prefix_length_le ⟨rest, List.append_assoc ..⟩ h.kept_prefix ?_
      simp only [hshown, List.length_append]
      omega
    refine ⟨hkept, ?_⟩
    obtain hlt | hle := Nat.lt_or_ge begun.length blanks.length
    · -- what is shown begins with the part, and so the part with no blank
      obtain rfl : left = [] := List.eq_nil_of_length_eq_zero (by omega)
      have hc : Text.isBlank c = false := h.not_isBlank_head c (by rw [hshown]; rfl)
      have hfirst : begun ++ [c] <+: begun ++ c :: ds := (List.prefix_append_right_inj _).mpr ⟨ds, rfl⟩
      refine (h.blanks_prefix_iff (hfirst.trans hkept)).mpr ?_
      rintro ⟨hblank, _⟩
      rw [hc] at hblank
      cases hblank
    · exact List.prefix_of_prefix_length_le h.blanks_prefix (List.prefix_append begun _) hle
  · rintro ⟨⟨more, hkept⟩, ⟨left, rfl⟩⟩
    rw [List.append_assoc, List.append_assoc, List.append_right_inj] at hkept
    refine ⟨left, more, by rw [← hkept], ?_, ?_⟩
    · simp only [start, List.length_append]
      omega
    · simp only [start, List.length_append, List.length_cons]
      omega

/-- An excerpt points at every part of a text that it does not hide. -/
theorem pointsAt_ofText_iff (firstLine : UInt64) (before : List Char) (hpiece : piece ≠ []) (after : List Char) :
    let start : Position := ⟨0, firstLine, 0⟩
    PointsAt (ofText (String.ofList (before ++ (piece ++ after)))
        ⟨start.advanceAll before, start.advanceAll (before ++ piece)⟩) piece ↔
      ¬Hides before piece after := by
  intro start
  by_cases hnewline : '\n' ∈ piece
  · refine iff_of_false ?_ (not_not.mpr (.newline hnewline))
    rintro ⟨left, right, hline, _⟩
    exact hline (List.mem_append_right _ (List.mem_append_left _ hnewline))
  obtain ⟨blanks, shown, returns, carets, hcut, hexcerpt, hcarets⟩ :=
    ofText_of_newline_notMem firstLine before hnewline after
  have hshown : '\n' ∉ shown := by
    intro hmem
    have hline : '\n' ∈ Text.begun before ++ (piece ++ after.takeWhile (· ≠ '\n')) := by
      rw [hcut.line_eq]
      exact List.mem_append_left _ (List.mem_append_right _ hmem)
    simp only [List.mem_append, Text.newline_notMem_begun, hnewline, false_or] at hline
    simpa using List.mem_takeWhile_imp hline
  have hkept := (List.append_assoc _ piece _ ▸ hcut).prefix_kept_iff
  obtain ⟨c, ds, rfl⟩ := List.exists_cons_of_ne_nil hpiece
  have hfirst : Text.begun before ++ [c] <+: Text.begun before ++ c :: ds :=
    (List.prefix_append_right_inj _).mpr ⟨ds, rfl⟩
  rw [hexcerpt, hcarets.eq_replicate (by omega) (by omega), pointsAt_iff hshown]
  refine (hcut.under_iff hpiece).trans ?_
  constructor
  · rintro ⟨hall, hblanks⟩ hhides
    cases hhides with
    | newline hmem => exact hnewline hmem
    | returns hlast hafter => exact hkept.mp hall ⟨by rw [List.getLast?_append, hlast]; rfl, hafter⟩
    | blanks hhead hblank hbefore =>
        cases hhead
        exact (hcut.blanks_prefix_iff (hfirst.trans hall)).mp hblanks ⟨hblank, hbefore⟩
  · intro hhides
    have hall : Text.begun before ++ c :: ds <+: blanks ++ shown := by
      refine hkept.mpr ?_
      rintro ⟨hlast, hafter⟩
      rw [List.getLast?_append_of_ne_nil _ hpiece] at hlast
      exact hhides (.returns hlast hafter)
    refine ⟨hall, (hcut.blanks_prefix_iff (hfirst.trans hall)).mpr ?_⟩
    rintro ⟨hblank, hbefore⟩
    exact hhides (.blanks rfl hblank hbefore)

/-- Only a part with a blank can be hidden. -/
theorem Hides.exists_isBlank (h : Hides before piece after) : ∃ c ∈ piece, Text.isBlank c = true := by
  cases h with
  | newline hpiece => exact ⟨_, hpiece, rfl⟩
  | returns hpiece => exact ⟨_, List.mem_of_getLast? hpiece, rfl⟩
  | blanks hpiece hblank => exact ⟨_, List.mem_of_mem_head? hpiece, hblank⟩

end Excerpt

/-! ### Marked parts -/

namespace Span

variable {s : Span} {p : Position} {text before piece before' rest : List Char}

/-- The part that a span marks is known from the place where the span starts. -/
theorem Marks.before_eq (h : s.Marks p (before' ++ rest) before piece) (hp : p.offset = 0)
    (hstart : s.start = p.advanceAll before') : before = before' := by
  have hplace := h.start_place
  rw [hstart, Position.offset_advanceAll, hp, Nat.zero_add, Text.takeBytes?_append] at hplace
  exact (Option.some.inj hplace).symm

/-- The part that a span marks, by the numbers of the characters before its two ends. -/
theorem Marks.drop_take (h : s.Marks p text before piece) :
    (text.take (Text.charIndex text s.stop.offset)).drop (Text.charIndex text s.start.offset) = piece := by
  rw [Text.charIndex, Text.charIndex, h.start_place, h.stop_place]
  obtain ⟨after, rfl⟩ := h.startsWith
  show ((before ++ piece ++ after).take (before ++ piece).length).drop before.length = piece
  rw [List.take_left, List.drop_left]

end Span

/-! ### Reports of a run -/

namespace Token

open Excerpt

variable {source : Source} {lexemes : List Lexeme} {l : Lexeme} {s : Span} {before piece after : List Char}

/-- Nothing is hidden of a part that begins with a lexeme. A text that scans holds no blanks but those that are
skipped, so it is one line, without a carriage return. -/
theorem not_hides_of_scan (hscan : scan source.start source.text = .ok lexemes) (hl : l ∈ lexemes)
    (hstart : s.start = l.span.start) (hmarks : s.Marks source.start source.text.toList before piece)
    (htext : source.text.toList = before ++ (piece ++ after)) : ¬Hides before piece after := by
  obtain ⟨ls, q, hcuts, rfl⟩ := scan_eq_ok_iff.mp hscan
  have hskipped : ∀ c ∈ piece, Text.isBlank c = true → IsSpace c := by
    intro c hc hblank
    have hmem : c ∈ source.text.toList := by simp [htext, hc]
    by_contra hspace
    cases hcuts.mem_rest hblank hspace hmem
  intro hhides
  cases hhides with
  | newline hpiece => exact absurd (hskipped _ hpiece rfl) (by simp [IsSpace])
  | returns hpiece => exact absurd (hskipped _ (List.mem_of_getLast? hpiece) rfl) (by simp [IsSpace])
  | @blanks c hpiece hblank =>
      obtain ⟨more, rfl⟩ := List.head?_eq_some_iff.mp hpiece
      obtain hl | hl := List.mem_append.mp hl
      · obtain ⟨before', spelling, rest, hsplit, hspan, hspelling⟩ := hcuts.spelledBy l hl
        rw [hspan] at hstart
        rw [hsplit] at hmarks htext
        obtain rfl := hmarks.before_eq rfl hstart
        obtain ⟨d, ds, rfl⟩ := List.exists_cons_of_ne_nil hspelling.ne_nil
        obtain rfl : d = c := (List.cons.inj (List.append_cancel_left htext)).1
        cases hblank.symm.trans (hspelling.isBlank_eq_false d List.mem_cons_self)
      · -- nothing stands behind the place of the end token
        obtain rfl := List.mem_singleton.mp hl
        obtain ⟨whole, hwhole, rfl, _⟩ := hcuts.of_append
        rw [hwhole] at hmarks htext
        obtain rfl := hmarks.before_eq rfl hstart
        cases List.append_cancel_left htext

end Token

namespace Session

open Excerpt Interpreter

variable {s : Session} {source : Source} {report : Report}

theorem source_of_run (h : (s.run source).1 = .error (some report)) : report.source = source := by
  obtain ⟨e, _, rfl⟩ | ⟨lexemes, _, ⟨e, _, rfl⟩ | ⟨e, error, _, _, _, _, rfl⟩⟩ := report_of_run h <;> rfl

/-- A run that fails is reported where the scan fails, or from the start of a lexeme to the end of one. -/
theorem span_of_run (h : (s.run source).1 = .error (some report)) :
    (∃ e, Token.scan source.start source.text = .error e ∧ report.span = e.span) ∨
      ∃ lexemes, Token.scan source.start source.text = .ok lexemes ∧
        report.span.ends.Sublist (Lexeme.places lexemes) ∧ ∃ l ∈ lexemes, report.span.start = l.span.start := by
  obtain ⟨e, hscan, rfl⟩ | ⟨lexemes, hscan, hread | heval⟩ := report_of_run h
  · exact .inl ⟨e, hscan, rfl⟩
  · obtain ⟨e, hread, rfl⟩ := hread
    obtain ⟨l, hl, hspan⟩ := Token.syntaxError_span_mem hscan hread
    have hends := Lexeme.ends_sublist_places hl
    rw [← hspan] at hends
    exact .inr ⟨lexemes, hscan, hends, l, hl, congrArg Span.start hspan⟩
  · obtain ⟨e, error, _, hread, heval, _, rfl⟩ := heval
    have hends := ends_place_sublist s.interpreter hread
    have hplaced := eval_placed (i := s.interpreter) rfl e []
    rw [heval] at hends hplaced
    obtain ⟨l, hl, hstart⟩ := FailsBy.exists_start hplaced
    obtain ⟨ls, rest, rfl, hderives⟩ := Expr.derives_of_ofLexemes? hread
    have hmem : l ∈ ls := hderives.lexemes_sublist.subset hl
    exact .inr ⟨_, hscan, hends, l, List.mem_append_left _ hmem, hstart⟩

/-- The part of the text that a report marks. An excerpt that does not show all of it is one of a failed scan. -/
theorem marks_of_run (h : (s.run source).1 = .error (some report)) :
    ∃ before piece after, source.text.toList = before ++ (piece ++ after) ∧
      report.span.Marks source.start source.text.toList before piece ∧
      (Hides before piece after →
        ∃ c, piece = [c] ∧ Token.scan source.start source.text = .error ⟨.illegal c, report.span⟩) := by
  obtain ⟨e, hscan, hspan⟩ | ⟨lexemes, hscan, hends, l, hl, hstart⟩ := span_of_run h
  · obtain ⟨ls, q, c, rest, hcuts, _, rfl⟩ := Token.scan_eq_error_iff.mp hscan
    obtain ⟨before, htext, rfl, _⟩ := hcuts.of_append
    have hstop : (source.start.advanceAll before).advance c = source.start.advanceAll (before ++ [c]) :=
      (Position.advanceAll_append _ before [c]).symm
    refine ⟨before, [c], rest, htext, ?_, ?_⟩
    · have hmarks := Span.marks_advanceAll (p := source.start) rfl before [c] rest
      rw [hspan, htext]
      rwa [← hstop] at hmarks
    · intro hhides
      obtain ⟨d, hd, hblank⟩ := hhides.exists_isBlank
      obtain rfl := List.mem_singleton.mp hd
      have hbang : d ≠ '!' := by
        rintro rfl
        cases hblank
      refine ⟨d, rfl, ?_⟩
      rw [hscan, hspan, if_neg hbang]
  · obtain ⟨before, piece, hmarks⟩ := Span.marks_of_visits rfl (Token.liesIn_of_scan hscan hends).visits
    obtain ⟨after, htext⟩ := hmarks.startsWith
    rw [List.append_assoc] at htext
    refine ⟨before, piece, after, htext.symm, hmarks, fun hhides => ?_⟩
    exact absurd hhides (Token.not_hides_of_scan hscan hl hstart hmarks htext.symm)

/-- What the excerpt and the drawing of a report point at. After any operations on a new session, a run that fails with
a span that is not empty marks a part of its text. That is the part which the drawing underlines. The carets of the
excerpt stand under it exactly if the excerpt does not hide any of it, and the only parts that it hides are single
characters that start no token. -/
theorem excerpt_points_at {maxDepth : Nat} {ops : List Operation} {source : Source} {report : Report}
    (h : ((ops.foldl perform { settings := { maxDepth } }).run source).1 = .error (some report))
    (hspan : report.span.isEmpty = false) :
    ∃ before piece after, source.text.toList = before ++ (piece ++ after) ∧
      report.span.Marks source.start source.text.toList before piece ∧
      (source.text.toList.take report.underlined.last).drop report.underlined.first = piece ∧
      (PointsAt report.excerpt piece ↔ ¬Hides before piece after) ∧
      (Hides before piece after →
        ∃ c, piece = [c] ∧ Token.scan source.start source.text = .error ⟨.illegal c, report.span⟩) := by
  obtain ⟨before, piece, after, htext, hmarks, hhides⟩ := marks_of_run h
  have hsource := source_of_run h
  refine ⟨before, piece, after, htext, hmarks, ?_, ?_, hhides⟩
  · rw [Report.underlined, hsource]
    exact hmarks.drop_take
  · have hpiece : piece ≠ [] := by
      rintro rfl
      have hstop := hmarks.stop_eq
      rw [List.append_nil, ← hmarks.start_eq] at hstop
      simp [Span.isEmpty, hstop] at hspan
    have hends : report.span = ⟨source.start.advanceAll before, source.start.advanceAll (before ++ piece)⟩ := by
      rw [← hmarks.start_eq, ← hmarks.stop_eq]
    have hexcerpt := pointsAt_ofText_iff source.firstLine before hpiece after
    rw [← htext, String.ofList_toList] at hexcerpt
    rw [Report.excerpt, hsource, hends]
    exact hexcerpt

/-- An illegal character behind an indentation, and in front of the carriage return that ends the line. -/
theorem excerpt_points_at_indented :
    let source : Source := ⟨"cells", "  12 + é\r", 4⟩
    let report : Report := ⟨.illegalCharacter, "'é'", ⟨⟨7, 4, 7⟩, ⟨9, 4, 8⟩⟩, source⟩
    let ops : List Operation := [.run ⟨"cells", "VAR x = 1", 3⟩]
    ((ops.foldl perform { settings := { maxDepth := 10 } }).run source).1 = .error (some report) ∧
      report.span.isEmpty = false ∧ report.excerpt = "12 + é\n     ^" ∧ PointsAt report.excerpt ['é'] ∧
      (source.text.toList.take report.underlined.last).drop report.underlined.first = ['é'] := by
  intro source report ops
  have hrun : ((ops.foldl perform { settings := { maxDepth := 10 } }).run source).1 = .error (some report) := by cbv
  obtain ⟨before, piece, after, _, _, hdrawn, hexcerpt, _⟩ := excerpt_points_at hrun rfl
  obtain rfl : ['é'] = piece := by
    rw [← hdrawn]
    cbv
  refine ⟨hrun, rfl, by cbv, hexcerpt.mpr fun hhides => ?_, hdrawn⟩
  obtain ⟨c, hc, hblank⟩ := hhides.exists_isBlank
  obtain rfl := List.mem_singleton.mp hc
  cases hblank

/-- An excerpt does not point at a no-break space that its line starts with. -/
theorem excerpt_not_points_at :
    ¬∀ {maxDepth : Nat} {ops : List Operation} {source : Source} {report : Report} {before piece after : List Char},
      ((ops.foldl perform { settings := { maxDepth } }).run source).1 = .error (some report) →
      report.span.isEmpty = false → source.text.toList = before ++ (piece ++ after) →
      report.span.Marks source.start source.text.toList before piece →
      piece ≠ ['\n'] → ¬(piece = ['\r'] ∧ ∀ c ∈ after.takeWhile (· ≠ '\n'), c = '\r') →
      PointsAt report.excerpt piece := by
  intro h
  let source : Source := ⟨"cells", "\u00a01 + 2", 0⟩
  let report : Report := ⟨.illegalCharacter, "'\u00a0'", ⟨⟨0, 0, 0⟩, ⟨2, 0, 1⟩⟩, source⟩
  have hrun : ((List.foldl perform { settings := { maxDepth := 10 } } []).run source).1 = .error (some report) := by cbv
  have hchars : source.text.toList = [] ++ (['\u00a0'] ++ ['1', ' ', '+', ' ', '2']) := by cbv
  have hmarks : report.span.Marks source.start source.text.toList [] ['\u00a0'] := by
    rw [hchars]
    exact Span.marks_advanceAll rfl [] ['\u00a0'] ['1', ' ', '+', ' ', '2']
  have hexcerpt : report.excerpt =
      String.ofList (['1', ' ', '+', ' ', '2'] ++ '\n' :: (List.replicate 0 ' ' ++ List.replicate 1 '^')) := by cbv
  have hpoints := h hrun rfl hchars hmarks (by decide) (by decide)
  rw [hexcerpt, pointsAt_iff (by decide)] at hpoints
  obtain ⟨left, right, hshown, hleft, _⟩ := hpoints
  obtain rfl := List.eq_nil_of_length_eq_zero hleft
  cases hshown

end Session
end LineCalc
