import LineCalc.Proofs.LineOffset
import LineCalc.Proofs.ReportPlace

/-!
The number of the first line is a pure shift of line numbers. A text that scans is a single line, and a scan that fails
does so on the first line, so what a run comes to names this line only. The one exception is a newline at which the
scan stops, as it ends on the next line (`Session.stop_line_of_run`). So the same text on line `n` comes to the same,
with line numbers that are larger by exactly `n`, unless the next line has no number in a machine word
(`Session.first_line_shift`).
-/

namespace LineCalc

variable {n : UInt64} {source : Source} {text : String} {s : Session} {report : Report}

/-! ### What is further down -/

/-- The place `q` is the place `p`, exactly `n` lines further down. -/
structure Position.FurtherDown (n : UInt64) (p q : Position) : Prop where
  offset_eq : q.offset = p.offset
  column_eq : q.column = p.column
  line_eq : q.line.toNat = p.line.toNat + n.toNat

structure Span.FurtherDown (n : UInt64) (a b : Span) : Prop where
  start : a.start.FurtherDown n b.start
  stop : a.stop.FurtherDown n b.stop

structure TraceEntry.FurtherDown (n : UInt64) (a b : TraceEntry) : Prop where
  frameName_eq : b.frameName = a.frameName
  line_eq : b.line.toNat = a.line.toNat + n.toNat

/-- The reports are the same, but all line numbers of the second one are larger by exactly `n`. -/
structure Report.FurtherDown (n : UInt64) (r r' : Report) : Prop where
  kind_eq : r'.kind.name = r.kind.name
  message_eq : r'.message = r.message
  span : r.span.FurtherDown n r'.span
  traceback : Option.Rel (List.Forall₂ (TraceEntry.FurtherDown n)) r.kind.traceback? r'.kind.traceback?
  excerpt_eq : r'.excerpt = r.excerpt

theorem Position.furtherDown_later {p : Position} (h : p.Fits n) : p.FurtherDown n (p.later n) :=
  ⟨rfl, rfl, h.toNat_line⟩

theorem Report.furtherDown_later {r : Report} (hstart : r.span.start.Fits n) (hstop : r.span.stop.Fits n)
    (hentries : ∀ traceback ∈ r.kind.traceback?, ∀ entry ∈ traceback, entry.line = r.span.start.line) :
    r.FurtherDown n (r.later n) where
  kind_eq := by
    rw [later]
    cases r.kind <;> rfl
  message_eq := rfl
  span := ⟨Position.furtherDown_later hstart, Position.furtherDown_later hstop⟩
  traceback := by
    obtain ⟨kind, message, span, source⟩ := r
    cases kind with
    | runtime traceback =>
        refine .some (List.forall₂_map_right_iff.mpr (List.forall₂_same.mpr ?_))
        intro entry hentry
        refine ⟨rfl, ?_⟩
        show (entry.line + n).toNat = _
        rw [hentries traceback rfl entry hentry]
        exact hstart.toNat_line
    | illegalCharacter | expectedCharacter | invalidSyntax => exact .none
  excerpt_eq := excerpt_later hstart hstop

/-! ### The lines that a run names -/

/-- The scan of the text stops at a newline. -/
def Token.StopsAtNewline (start : Position) (text : String) : Prop :=
  ∃ span, scan start text = .error ⟨.illegal '\n', span⟩

theorem Token.not_stopsAtNewline {start : Position} (h : '\n' ∉ text.toList) : ¬StopsAtNewline start text := by
  rintro ⟨span, hscan⟩
  obtain ⟨ls, q, c, cs, hcuts, _, herror⟩ := scan_eq_error_iff.mp hscan
  obtain ⟨before, htext, _⟩ := hcuts.of_append
  have hcause := congrArg ScanError.cause herror
  split at hcause <;> cases hcause
  exact h (htext ▸ List.mem_append_right _ List.mem_cons_self)

theorem Token.stop_line_of_scan_error {e : ScanError} (h : scan source.start source.text = .error e) :
    e.span.stop.line = source.firstLine ∨
      StopsAtNewline source.start source.text ∧ e.span.stop.line = source.firstLine + 1 := by
  have hline := (liesIn_of_scan_error h).line_eq
  obtain ⟨ls, q, c, cs, _, _, rfl⟩ := scan_eq_error_iff.mp h
  replace hline : q.line = source.firstLine := hline
  show (q.advance c).line = _ ∨ _ ∧ (q.advance c).line = _
  rw [Position.advance]
  split
  · next hc =>
    subst hc
    exact .inr ⟨⟨_, h⟩, congrArg (· + 1) hline⟩
  · exact .inl hline

theorem Span.LiesIn.stop_line {span : Span} (h : span.LiesIn source) (hline : '\n' ∉ source.text.toList) :
    span.stop.line = source.firstLine :=
  h.visits.line_eq hline _ (List.mem_cons_of_mem _ List.mem_cons_self)

namespace Session

theorem stop_line_of_run (h : (s.run source).1 = .error (some report)) :
    report.span.stop.line = source.firstLine ∨
      Token.StopsAtNewline source.start source.text ∧ report.span.stop.line = source.firstLine + 1 := by
  have hlies := liesIn_of_run h
  obtain ⟨e, hscan, rfl⟩ | ⟨lexemes, hscan, _⟩ := report_of_run h
  · exact Token.stop_line_of_scan_error hscan
  · exact .inl (hlies.stop_line (Token.newline_notMem_of_scan hscan))

theorem entry_line_of_run (hs : s.interpreter.SingleFrame) (h : (s.run source).1 = .error (some report)) :
    ∀ traceback ∈ report.kind.traceback?, ∀ entry ∈ traceback, entry.line = report.span.start.line := by
  rw [traceback?_of_run hs h]
  split
  · intro traceback htraceback entry hentry
    cases htraceback
    rw [List.mem_singleton.mp hentry]
  · exact nofun

/-! ### The shift -/

theorem fits_of_line_zero {p : Position} (h : p.line = 0) : p.Fits n := by
  rw [Position.Fits, h]
  have hn := n.toNat_lt_size
  simpa using hn

theorem furtherDown_of_run {label : String} (hs : s.interpreter.SingleFrame)
    (hn : n.toNat + 1 < UInt64.size ∨ ¬Token.StopsAtNewline {} text)
    (hrun : (s.run ⟨label, text, 0⟩).1 = .error (some report)) : report.FurtherDown n (report.later n) := by
  have hstart : report.span.start.Fits n := fits_of_line_zero (liesIn_of_run hrun).line_eq
  have hstop : report.span.stop.Fits n := by
    obtain hstop | ⟨hnewline, hstop⟩ := stop_line_of_run hrun
    · exact fits_of_line_zero hstop
    · have hnext := hn.resolve_right (not_not_intro hnewline)
      rw [Position.Fits, hstop]
      show 1 + n.toNat < _
      omega
  exact Report.furtherDown_later hstart hstop (entry_line_of_run hs hrun)

end Session
end LineCalc
