import LineCalc.Proofs.EvaluationAgreement
import LineCalc.Proofs.LongestMatch
import LineCalc.Proofs.SessionHistory

/-!
The same text further down. A text that starts some lines further down is scanned to the same lexemes that many
lines further down, these are read as the same expression there or refused at the same place there, and evaluation
keeps step. Nothing but the line numbers changes (`Session.run_alike`); excerpts count lines from the start of the span
and do not change at all, unless the line numbers wrap.
-/

namespace LineCalc

variable {n : UInt64}

namespace Position

/-- Reading on from the place further down comes to the place further down. -/
theorem later_advance (p : Position) (c : Char) : (p.advance c).later n = (p.later n).advance c := by
  rw [advance, advance]
  split
  · rw [later, later, UInt64.add_assoc, UInt64.add_comm 1, ← UInt64.add_assoc]
  · rfl

theorem later_advanceAll (p : Position) (cs : List Char) : (p.advanceAll cs).later n = (p.later n).advanceAll cs := by
  induction cs generalizing p with
  | nil => rfl
  | cons c cs ih => rw [advanceAll_cons, ih, later_advance, advanceAll_cons]

/-- The line number does not wrap when it grows by `n`. -/
def Fits (n : UInt64) (p : Position) : Prop := p.line.toNat + n.toNat < UInt64.size

theorem Fits.toNat_line {p : Position} (h : p.Fits n) : (p.later n).line.toNat = p.line.toNat + n.toNat :=
  (UInt64.toNat_add ..).trans (Nat.mod_eq_of_lt h)

end Position

/-! ### Scanning -/

def ScanError.move (f : Position → Position) (e : ScanError) : ScanError := ⟨e.cause, e.span.move f⟩

namespace Token

variable {p q : Position} {cs ds : List Char} {ls : List Lexeme}

/-- A text is cut in the same way further down. -/
theorem Cuts.later (h : Cuts p cs ls q ds) :
    Cuts (p.later n) cs (ls.map (Located.move (Position.later n))) (q.later n) ds := by
  induction h with
  | here => exact .here
  | skip hspace _ ih =>
      rw [Position.later_advance] at ih
      exact .skip hspace ih
  | @take p t piece cs ls q ds hlongest _ ih =>
      have hmoved : Located.move (Position.later n) (⟨t, p, p.advanceAll piece⟩ : Lexeme) =
          ⟨t, p.later n, (p.later n).advanceAll piece⟩ := by
        rw [← Position.later_advanceAll]
        rfl
      rw [Position.later_advanceAll] at ih
      rw [List.map_cons, hmoved]
      exact .take hlongest ih

theorem scan_later_of_ok {start : Position} {text : String} (h : scan start text = .ok ls) :
    ls ≠ [] ∧ scan (start.later n) text = .ok (ls.map (Located.move (Position.later n))) := by
  obtain ⟨ls, q, hcuts, rfl⟩ := scan_eq_ok_iff.mp h
  refine ⟨by simp, scan_eq_ok_iff.mpr ⟨_, q.later n, hcuts.later, ?_⟩⟩
  rw [List.map_append]
  rfl

theorem scan_later_of_error {start : Position} {text : String} {e : ScanError} (h : scan start text = .error e) :
    scan (start.later n) text = .error (e.move (Position.later n)) := by
  obtain ⟨ls, q, c, cs, hcuts, hstuck, rfl⟩ := scan_eq_error_iff.mp h
  refine scan_eq_error_iff.mpr ⟨_, q.later n, c, cs, hcuts.later, hstuck, ?_⟩
  rw [← Position.later_advance]
  rfl

end Token

/-! ### Reports -/

namespace Excerpt

variable {span : Span}

theorem lineCount_later (hstart : span.start.Fits n) (hstop : span.stop.Fits n) :
    lineCount (span.move (Position.later n)) = lineCount span := by
  simp only [lineCount, Span.move, hstart.toNat_line, hstop.toNat_line, Nat.add_sub_add_right]
  rfl

theorem row_later (hstart : span.start.Fits n) (hstop : span.stop.Fits n) (i : Nat) (line : List Char) :
    row (span.move (Position.later n)) i line = row span i line := by
  have hlast : span.start.line.toNat + n.toNat + i < span.stop.line.toNat + n.toNat ↔
      span.start.line.toNat + i < span.stop.line.toNat := by omega
  simp only [row, lineCount_later hstart hstop]
  simp only [Span.move, hstart.toNat_line, hstop.toNat_line, hlast]
  rfl

theorem ofText_later (hstart : span.start.Fits n) (hstop : span.stop.Fits n) (text : String) :
    ofText text (span.move (Position.later n)) = ofText text span := by
  simp only [ofText, lineCount_later hstart hstop, row_later hstart hstop]
  rfl

end Excerpt

/-- The source with a first line `n` lines further down. -/
def Source.later (n : UInt64) (source : Source) : Source := { source with firstLine := source.firstLine + n }

namespace Report

def Kind.later (n : UInt64) : Kind → Kind
  | runtime traceback => runtime (traceback.map (TraceEntry.later n))
  | kind => kind

/-- The report with all its line numbers larger by `n`. -/
def later (n : UInt64) (r : Report) : Report :=
  ⟨r.kind.later n, r.message, r.span.move (Position.later n), r.source.later n⟩

theorem excerpt_later {r : Report} (hstart : r.span.start.Fits n) (hstop : r.span.stop.Fits n) :
    (r.later n).excerpt = r.excerpt :=
  Excerpt.ofText_later hstart hstop _

theorem later_ofScanError (source : Source) (e : ScanError) :
    ofScanError (source.later n) (e.move (Position.later n)) = (ofScanError source e).later n := by
  obtain ⟨cause, span⟩ := e
  cases cause <;> rfl

theorem later_ofSyntaxError (source : Source) (e : SyntaxError) :
    ofSyntaxError (source.later n) (e.move (Position.later n)) = (ofSyntaxError source e).later n := rfl

theorem later_ofEvalError? (source : Source) (e : EvalError) :
    ofEvalError? (source.later n) (e.later n) = (ofEvalError? source e).map (later n) := by
  obtain ⟨cause, span, traceback⟩ := e
  cases traceback <;> rfl

end Report

namespace Session

/-- Nothing that is run in the one session can be told from the same in the other, but for where values were computed.
-/
structure Alike (s t : Session) : Prop where
  interpreter : Interpreter.Alike Set.univ s.interpreter t.interpreter
  settings : t.settings = s.settings

variable {s t : Session}

theorem Alike.refl (hs : s.interpreter.SingleFrame) : s.Alike s := ⟨.refl hs, rfl⟩

/-- The names have the same numbers. -/
theorem Alike.map_num (h : s.Alike t) (x : String) : (t.get? x).map Value.num = (s.get? x).map Value.num := by
  have hx := h.interpreter.values x (Set.mem_univ x)
  rw [get?, get?]
  generalize s.interpreter.get? x = v?, t.interpreter.get? x = w? at hx
  cases hx with
  | none => rfl
  | some hvalue => exact congrArg some hvalue.num_eq

/-- The same text further down, run in a session that is alike. -/
theorem run_alike (h : s.Alike t) (source : Source) :
    BothEnd (Value.AlikeAt n) (fun failure failure' => failure' = failure.map (Report.later n))
        (s.run source).1 (t.run (source.later n)).1 ∧
      (s.run source).2.Alike (t.run (source.later n)).2 := by
  have hsettings := h.settings
  cases hscan : Token.scan source.start source.text with
  | error e =>
      have hscan' : Token.scan (source.later n).start (source.later n).text = .error _ :=
        Token.scan_later_of_error hscan
      rw [run_of_scan_error hscan, run_of_scan_error hscan']
      exact ⟨.error (congrArg some (Report.later_ofScanError source e)), h⟩
  | ok lexemes =>
      obtain ⟨hne, hscan'⟩ := Token.scan_later_of_ok (n := n) hscan
      replace hscan' : Token.scan (source.later n).start (source.later n).text = .ok _ := hscan'
      have hmove := Expr.ofLexemes?_move (f := Position.later n) hne s.settings.maxDepth
      cases hread : Expr.ofLexemes? s.settings.maxDepth lexemes with
      | error e =>
          rw [hread, ← hsettings] at hmove
          rw [run_of_read_error hscan hread, run_of_read_error hscan' hmove]
          exact ⟨.error (congrArg some (Report.later_ofSyntaxError source e)), h⟩
      | ok e =>
          rw [hread, ← hsettings] at hmove
          rw [run_of_read_ok hscan hread, run_of_read_ok hscan' hmove]
          obtain ⟨hresult, hafter⟩ :=
            Interpreter.eval_alike (n := n) (e := e) (fun _ _ => Set.mem_univ _) h.interpreter
          refine ⟨?_, hafter, hsettings⟩
          generalize (s.interpreter.eval e).1 = r, (t.interpreter.eval (e.move (Position.later n))).1 = r' at hresult
          cases hresult with
          | ok hvalue => exact .ok hvalue
          | error herror =>
              subst herror
              exact .error (Report.later_ofEvalError? source _)

end Session
end LineCalc
