import LineCalc.Proofs.EvaluationAgreement
import LineCalc.Proofs.SessionHistory
import LineCalc.Proofs.SourceTiling
import LineCalc.Proofs.SyntaxErrorPlace

/-!
Where a failed run is reported. Reading a text passes its places in order (`Position.Visits`), the scanner puts the
ends of all lexemes among these, and what comes after it takes every span from the ends of lexemes, the first one
from no later a place than the second. Evaluation does so too: a value that was bound in another text loses its span
where it is read. So every report of a run lies in the text that was run (`report_place`).
-/

namespace LineCalc

/-! ### Places in order -/

/-- Reading `cs` from `p` passes the places listed, in this order. A place may be listed more than once. -/
inductive Position.Visits : Position → List Char → List Position → Prop
  | nil {p cs} : Visits p cs []
  | mark {p cs qs} (hmore : Visits p cs qs) : Visits p cs (p :: qs)
  | advance {p c cs qs} (hmore : Visits (p.advance c) cs qs) : Visits p (c :: cs) qs

namespace Position.Visits

variable {p q : Position} {c : Char} {cs piece : List Char} {qs qs' : List Position}

theorem sublist (h : p.Visits cs qs) (hsub : qs'.Sublist qs) : p.Visits cs qs' := by
  induction h generalizing qs' with
  | nil =>
      rw [List.sublist_nil.mp hsub]
      exact .nil
  | mark _ ih =>
      cases hsub with
      | cons _ hsub => exact ih hsub
      | cons_cons _ hsub => exact .mark (ih hsub)
  | advance _ ih => exact .advance (ih hsub)

theorem advanceAll (h : (p.advanceAll piece).Visits cs qs) : p.Visits (piece ++ cs) qs := by
  induction piece generalizing p with
  | nil => exact h
  | cons c piece ih => exact .advance (ih h)

theorem first (h : p.Visits cs (q :: qs)) :
    ∃ before after, cs = before ++ after ∧ q = p.advanceAll before ∧ q.Visits after qs := by
  generalize hqs : q :: qs = all at h
  induction h with
  | nil => cases hqs
  | @mark p cs _ hmore _ =>
      cases hqs
      exact ⟨[], cs, rfl, rfl, hmore⟩
  | @advance p c _ _ _ ih =>
      obtain ⟨before, after, rfl, hq, hmore⟩ := ih hqs
      exact ⟨c :: before, after, rfl, hq, hmore⟩

end Position.Visits

/-- The ends of the span. -/
def Span.ends (s : Span) : List Position := [s.start, s.stop]

theorem Span.ends_enclose_sublist {a b : Span} {ps qs : List Position} (ha : a.ends.Sublist ps)
    (hb : b.ends.Sublist qs) : (a.enclose b).ends.Sublist (ps ++ qs) := by
  have hstart : [a.start].Sublist ps := .trans (.cons_cons _ (List.nil_sublist _)) ha
  have hstop : [b.stop].Sublist qs := .trans (.cons _ (.refl _)) hb
  exact hstart.append hstop

theorem Span.marks_of_visits {s : Span} {p : Position} {text : List Char} (hp : p.offset = 0)
    (h : p.Visits text s.ends) : ∃ before piece, s.Marks p text before piece := by
  obtain ⟨before, behind, rfl, hstart, h⟩ := h.first
  obtain ⟨piece, after, rfl, hstop, _⟩ := h.first
  rw [hstart, ← Position.advanceAll_append] at hstop
  have hs : s = ⟨p.advanceAll before, p.advanceAll (before ++ piece)⟩ := by rw [← hstart, ← hstop]
  rw [hs]
  exact ⟨before, piece, Span.marks_advanceAll hp before piece after⟩

/-- The ends of the lexemes. -/
def Lexeme.places (ls : List Lexeme) : List Position := ls.flatMap (·.span.ends)

theorem Lexeme.places_cons (l : Lexeme) (ls : List Lexeme) : places (l :: ls) = l.span.ends ++ places ls :=
  List.flatMap_cons

theorem Lexeme.places_append (ls ms : List Lexeme) : places (ls ++ ms) = places ls ++ places ms :=
  List.flatMap_append

theorem Lexeme.ends_sublist_places {l : Lexeme} {ls : List Lexeme} (h : l ∈ ls) :
    l.span.ends.Sublist (places ls) := by
  obtain ⟨before, after, rfl⟩ := List.mem_iff_append.mp h
  rw [places_append, places_cons]
  exact .trans (List.sublist_append_left _ _) (List.sublist_append_right _ _)

namespace Token

variable {p q : Position} {c : Char} {cs ds : List Char} {ls : List Lexeme} {qs : List Position}

theorem Cuts.visits (h : Cuts p cs ls q ds) (hmore : q.Visits ds qs) : p.Visits cs (Lexeme.places ls ++ qs) := by
  induction h with
  | here => exact hmore
  | skip _ _ ih => exact .advance (ih hmore)
  | take _ _ ih => exact .mark (.advanceAll (.mark (ih hmore)))

/-- A blank that is not skipped is in no part of a text that has been cut. -/
theorem Cuts.mem_rest (h : Cuts p cs ls q ds) (hblank : Text.isBlank c = true) (hspace : ¬IsSpace c) (hc : c ∈ cs) :
    c ∈ ds := by
  induction h with
  | here => exact hc
  | skip hskip _ ih =>
      obtain rfl | hc := List.mem_cons.mp hc
      · exact absurd hskip hspace
      · exact ih hc
  | take hlongest _ ih =>
      obtain hc | hc := List.mem_append.mp hc
      · cases hblank.symm.trans (hlongest.spelledBy.isBlank_eq_false c hc)
      · exact ih hc

theorem Cuts.newline_notMem (h : Cuts p cs ls q ds) (hds : '\n' ∉ ds) : '\n' ∉ cs :=
  fun hc => hds (h.mem_rest rfl (by simp [IsSpace]) hc)

end Token

theorem Position.line_advanceAll {p : Position} {cs : List Char} (h : '\n' ∉ cs) : (p.advanceAll cs).line = p.line := by
  induction cs generalizing p with
  | nil => rfl
  | cons c cs ih =>
      rw [List.mem_cons, not_or] at h
      rw [advanceAll_cons, ih h.2, advance, if_neg (Ne.symm h.1)]

/-- A text without a newline is read on one line. -/
theorem Position.Visits.line_eq {p : Position} {cs : List Char} {qs : List Position} (h : p.Visits cs qs)
    (hcs : '\n' ∉ cs) : ∀ q ∈ qs, q.line = p.line := by
  induction h with
  | nil => exact nofun
  | mark _ ih => exact List.forall_mem_cons.mpr ⟨rfl, ih hcs⟩
  | @advance p c cs _ _ ih =>
      rw [List.mem_cons, not_or] at hcs
      have hline : (p.advance c).line = p.line := by rw [Position.advance, if_neg (Ne.symm hcs.1)]
      intro q hq
      rw [ih hcs.2 q hq, hline]

/-! ### Spans in a source -/

/-- The ends of the span are places of the text, in order, and the span starts on the first line. -/
structure Span.LiesIn (s : Span) (source : Source) : Prop where
  visits : source.start.Visits source.text.toList s.ends
  line_eq : s.start.line = source.firstLine

section

variable {source : Source} {lexemes : List Lexeme} {s : Span}

theorem Span.LiesIn.offset_le (h : s.LiesIn source) :
    s.start.offset ≤ s.stop.offset ∧ s.stop.offset ≤ source.text.utf8ByteSize := by
  obtain ⟨before, piece, hmarks⟩ := marks_of_visits rfl h.visits
  obtain ⟨after, htext⟩ := hmarks.startsWith
  have hstart : source.start.offset = 0 := rfl
  simp only [hmarks.start_eq, hmarks.stop_eq, Position.offset_advanceAll, hstart, ← Text.byteLength_toList, ← htext,
    Text.byteLength_append]
  omega

theorem Token.liesIn_of_scan_error {e : ScanError} (h : scan source.start source.text = .error e) :
    e.span.LiesIn source := by
  obtain ⟨ls, q, c, cs, hcuts, _, rfl⟩ := scan_eq_error_iff.mp h
  constructor
  · have hplaces : q.Visits (c :: cs) [q, q.advance c] := .mark (.advance (.mark .nil))
    exact (hcuts.visits hplaces).sublist (List.sublist_append_right _ _)
  · obtain ⟨before, _, rfl, hbefore⟩ := hcuts.of_append
    exact Position.line_advanceAll (hbefore.newline_notMem List.not_mem_nil)

theorem Token.newline_notMem_of_scan (h : scan source.start source.text = .ok lexemes) :
    '\n' ∉ source.text.toList := by
  obtain ⟨ls, q, hcuts, rfl⟩ := scan_eq_ok_iff.mp h
  exact hcuts.newline_notMem List.not_mem_nil

/-- In a text that scans, all that ends where lexemes end lies in the text, which has one line. -/
theorem Token.liesIn_of_scan (h : scan source.start source.text = .ok lexemes)
    (hs : s.ends.Sublist (Lexeme.places lexemes)) : s.LiesIn source := by
  obtain ⟨ls, q, hcuts, rfl⟩ := scan_eq_ok_iff.mp h
  have hend : q.Visits [] [q, q] := .mark (.mark .nil)
  have hvisits := hcuts.visits hend
  have hplaces : Lexeme.places (ls ++ [⟨.eof, .emptyAt q⟩]) = Lexeme.places ls ++ [q, q] := Lexeme.places_append ..
  rw [hplaces] at hs
  have hends := hvisits.sublist hs
  exact ⟨hends, hends.line_eq (newline_notMem_of_scan h) _ List.mem_cons_self⟩

/-- A text is refused at one of its lexemes. The end token is one too. -/
theorem Token.syntaxError_span_mem {limit : Nat} {e : SyntaxError} (h : scan source.start source.text = .ok lexemes)
    (hread : Expr.ofLexemes? limit lexemes = .error e) : ∃ l ∈ lexemes, e.span = l.span := by
  obtain ⟨ls, q, _, rfl⟩ := scan_eq_ok_iff.mp h
  have hwhole : (Parser.ofLexemes (ls ++ [⟨.eof, .emptyAt q⟩]) limit).whole = (.error e, _) := Prod.ext hread rfl
  have hspan := Parser.span_of_whole hwhole
  obtain ⟨read, hlexemes, _⟩ := Parser.viable_of_whole hwhole
  cases hrest : (Parser.ofLexemes (ls ++ [⟨.eof, .emptyAt q⟩]) limit).whole.2.rest with
  | nil =>
      rw [hrest, List.getLast?_concat] at hspan
      exact ⟨⟨.eof, .emptyAt q⟩, List.mem_append_right _ List.mem_cons_self, hspan⟩
  | cons l rest =>
      rw [hrest] at hspan hlexemes
      rw [hlexemes]
      exact ⟨l, List.mem_append_right _ List.mem_cons_self, hspan⟩

end

/-! ### Expressions -/

namespace Expr

/-- The ends of the lexemes that the expression keeps, from left to right. -/
def places : Expr → List Position
  | number n => n.span.ends
  | name x => x.span.ends
  | assign x value => x.span.ends ++ value.places
  | unary op operand => op.span.ends ++ operand.places
  | binary left op right => left.places ++ (op.span.ends ++ right.places)

theorem places_eq (e : Expr) : e.places = Lexeme.places e.lexemes := by
  induction e with
  | number | name => rfl
  | assign x value ih | unary x operand ih => rw [places, lexemes, Lexeme.places_cons, ih]
  | binary left op right ihleft ihright =>
      rw [places, lexemes, Lexeme.places_append, Lexeme.places_cons, ihleft, ihright]

theorem ends_sublist_places (e : Expr) : e.span.ends.Sublist e.places := by
  induction e with
  | number | name => exact .refl _
  | assign x value ih => exact Span.ends_enclose_sublist (.refl _) ih
  | unary op operand ih => exact Span.ends_enclose_sublist (.refl _) ih
  | binary left op right ihleft ihright =>
      exact Span.ends_enclose_sublist ihleft (ihright.trans (List.sublist_append_right _ _))

end Expr

theorem Rule.Derives.places_sublist {r : Rule} {ls : List Lexeme} {e : Expr} (h : r.Derives ls e) :
    e.places.Sublist (Lexeme.places ls) := by
  rw [Expr.places_eq]
  exact h.lexemes_sublist.flatMap _

theorem Expr.derives_of_ofLexemes? {lexemes : List Lexeme} {limit : Nat} {e : Expr}
    (h : Expr.ofLexemes? limit lexemes = .ok e) : ∃ ls rest, lexemes = ls ++ rest ∧ Rule.expression.Derives ls e := by
  obtain ⟨hread, _⟩ := Parser.whole_eq_ok_iff.mp (Prod.ext h rfl)
  obtain ⟨ls, hls, hderives, _⟩ := Parser.derives_of_expression hread
  rw [Parser.ofLexemes_rest] at hls
  exact ⟨ls, _, hls, hderives⟩

theorem Expr.places_sublist_of_ofLexemes? {lexemes : List Lexeme} {limit : Nat} {e : Expr}
    (h : Expr.ofLexemes? limit lexemes = .ok e) : e.places.Sublist (Lexeme.places lexemes) := by
  obtain ⟨ls, rest, rfl, hderives⟩ := derives_of_ofLexemes? h
  rw [Lexeme.places_append]
  exact hderives.places_sublist.trans (List.sublist_append_left _ _)

/-! ### Evaluation -/

namespace Interpreter

variable {i : Interpreter} {e : Expr}

/-- The span of what evaluation came to. -/
def place : Except EvalError Value → Span
  | .ok v => v.span
  | .error error => error.span

theorem ends_place_settle {i : Interpreter} {ps : List Position} {span : Span} (hspan : span.ends.Sublist ps)
    {operation : Except Fault Value} (herror : ∀ fault, operation = .error fault → fault.span.ends.Sublist ps) :
    (place (i.settle span operation)).ends.Sublist ps := by
  cases operation with
  | ok v => exact hspan
  | error fault => exact herror fault rfl

/-- Whatever evaluation comes to begins and ends at places in the expression, in this order. -/
theorem ends_place_eval (i : Interpreter) (e : Expr) : (place (i.eval e).1).ends.Sublist e.places := by
  induction e generalizing i with
  | number n => exact .refl _
  | name x =>
      rw [Interpreter.eval, read]
      cases i.get? x.value with
      | none => exact .refl _
      | some v => exact .refl _
  | assign x value ih =>
      have hvalue := (ih i).trans (List.sublist_append_right x.span.ends _)
      rcases heval : i.eval value with ⟨error | v, i'⟩ <;> rw [heval] at hvalue
      · rw [eval_assign_of_error heval]
        exact hvalue
      · rw [eval_assign_of_ok heval]
        exact hvalue
  | unary op operand ih =>
      have hoperand := (ih i).trans (List.sublist_append_right op.span.ends _)
      rcases heval : i.eval operand with ⟨error | v, i'⟩ <;> rw [heval] at hoperand
      · rw [eval_unary_of_error heval]
        exact hoperand
      · rw [eval_unary_of_ok heval]
        refine ends_place_settle (Expr.ends_sublist_places _) ?_
        intro fault hfault
        rw [(Value.place_of_applyUnary hfault).2]
        exact hoperand
  | binary left op right ihleft ihright =>
      have hleft := ihleft i
      rcases heval : i.eval left with ⟨error | a, i'⟩ <;> rw [heval] at hleft
      · rw [eval_binary_of_left_error heval]
        exact hleft.trans (List.sublist_append_left _ _)
      have hright := (ihright i').trans (List.sublist_append_right op.span.ends _)
      rcases heval' : i'.eval right with ⟨error | b, i''⟩ <;> rw [heval'] at hright
      · rw [eval_binary_of_right_error heval heval']
        exact hright.trans (List.sublist_append_right _ _)
      · rw [eval_binary_of_ok heval heval']
        refine ends_place_settle (Expr.ends_sublist_places _) ?_
        intro fault hfault
        obtain hspan | hspan := (Value.place_of_apply hfault).2 <;> rw [hspan]
        · exact hright.trans (List.sublist_append_right _ _)
        · -- an overflow is reported from the first operand to the second
          exact Span.ends_enclose_sublist hleft hright

theorem ends_place_sublist (i : Interpreter) {lexemes : List Lexeme} {limit : Nat}
    (hread : Expr.ofLexemes? limit lexemes = .ok e) : (place (i.eval e).1).ends.Sublist (Lexeme.places lexemes) :=
  (ends_place_eval i e).trans (Expr.places_sublist_of_ofLexemes? hread)

/-- With a single frame, an error that has a traceback knows its line there. -/
theorem SingleFrame.traceback?_of_eval (h : i.SingleFrame) {error : EvalError} {traceback : Traceback}
    (herror : (i.eval e).1 = .error error) (htraceback : error.traceback? = some traceback) :
    traceback = [⟨error.span.start.line, programFrame⟩] := by
  have hanywhere : i.FramesAre fun _ => True := ⟨trivial, fun _ _ _ => trivial⟩
  have hresult := (hanywhere.eval e).1
  have hevaluation : i.eval e = (.error error, (i.eval e).2) := Prod.ext herror rfl
  rw [hevaluation] at hresult
  obtain ⟨f, _, hframe⟩ := hresult
  rw [htraceback, (h.eval e).traceback?_eq] at hframe
  split at hframe <;> cases hframe
  rfl

/-- There is a single frame, and no value comes from another one. -/
structure OwnFrame (i : Interpreter) : Prop where
  singleFrame : i.SingleFrame
  framesAre : i.FramesAre (· = ⟨0⟩)

namespace OwnFrame

theorem set (h : i.OwnFrame) (x : String) {v : Value} (hv : v.home = ⟨0⟩) : (i.set x v).OwnFrame := by
  refine ⟨h.singleFrame.set x v, h.framesAre.set x ?_⟩
  rw [h.singleFrame.frame_eq]
  exact hv

theorem remove (h : i.OwnFrame) (x : String) : (i.remove x).2.OwnFrame := by
  refine ⟨h.singleFrame.remove x, h.framesAre.current, ?_⟩
  intro y w hw
  rw [h.singleFrame.get?_remove] at hw
  split at hw
  · cases hw
  · exact h.framesAre.bound y w hw

theorem eval (h : i.OwnFrame) (e : Expr) : (i.eval e).2.OwnFrame :=
  ⟨h.singleFrame.eval e, (h.framesAre.eval e).2⟩

/-- A failed evaluation can be told. -/
theorem isSome_traceback? (h : i.OwnFrame) {error : EvalError} (herror : (i.eval e).1 = .error error) :
    error.traceback?.isSome :=
  ((h.singleFrame.traceable h.framesAre).eval e).1 error herror

end OwnFrame
end Interpreter

/-! ### Sessions -/

namespace Session

open Interpreter

/-- A value that is set has no frame, or the one that every session has. -/
def Operation.SetsOwnFrame : Operation → Prop
  | set _ value => value.frame = none ∨ value.frame = some Interpreter.fresh.frame
  | _ => True

variable {s : Session} {source : Source} {report : Report}

theorem ownFrame_fresh : fresh.OwnFrame := ⟨singleFrame_fresh, framesAre_fresh⟩

theorem run_ownFrame (hs : s.interpreter.OwnFrame) (source : Source) : (s.run source).2.interpreter.OwnFrame := by
  cases h : source.expression? s.settings.maxDepth with
  | none =>
      obtain ⟨report, hrun⟩ := run_of_none h
      rw [hrun]
      exact hs
  | some e =>
      rw [run_of_some h]
      exact hs.eval e

theorem perform_ownFrame (hs : s.interpreter.OwnFrame) {op : Operation} (hop : op.SetsOwnFrame) :
    (s.perform op).interpreter.OwnFrame := by
  cases op with
  | run source => exact run_ownFrame hs source
  | set name value => exact hs.set name (Value.home_of_frame hop)
  | remove name => exact hs.remove name
  | get name => exact hs

theorem foldl_perform_ownFrame (hs : s.interpreter.OwnFrame) {ops : List Operation}
    (hops : ∀ op ∈ ops, op.SetsOwnFrame) : (ops.foldl perform s).interpreter.OwnFrame := by
  induction ops generalizing s with
  | nil => exact hs
  | cons op ops ih =>
      rw [List.forall_mem_cons] at hops
      exact ih (perform_ownFrame hs hops.1) hops.2

theorem traceback_of_scanError (source : Source) (e : ScanError) :
    (Report.ofScanError source e).kind.traceback? =
      if (Report.ofScanError source e).kind.name = "Runtime Error" then
        some [⟨e.span.start.line, "<program>"⟩] else none := by
  obtain ⟨cause, span⟩ := e
  cases cause <;> rfl

/-- A run fails in scanning, in reading or in evaluation. -/
theorem failure_of_run {failure : Option Report} (h : (s.run source).1 = .error failure) :
    (∃ e, Token.scan source.start source.text = .error e ∧ failure = some (.ofScanError source e)) ∨
      ∃ lexemes, Token.scan source.start source.text = .ok lexemes ∧
        ((∃ e, Expr.ofLexemes? s.settings.maxDepth lexemes = .error e ∧
            failure = some (.ofSyntaxError source e)) ∨
          ∃ e error, Expr.ofLexemes? s.settings.maxDepth lexemes = .ok e ∧ (s.interpreter.eval e).1 = .error error ∧
            failure = Report.ofEvalError? source error) := by
  cases hscan : Token.scan source.start source.text with
  | error e =>
      rw [run_of_scan_error hscan] at h
      exact .inl ⟨e, rfl, (Except.error.inj h).symm⟩
  | ok lexemes =>
      refine .inr ⟨lexemes, rfl, ?_⟩
      cases hread : Expr.ofLexemes? s.settings.maxDepth lexemes with
      | error e =>
          rw [run_of_read_error hscan hread] at h
          exact .inl ⟨e, rfl, (Except.error.inj h).symm⟩
      | ok e =>
          rw [run_of_read_ok hscan hread] at h
          refine .inr ⟨e, ?_⟩
          cases heval : (s.interpreter.eval e).1 with
          | ok v =>
              rw [heval] at h
              cases h
          | error error =>
              rw [heval] at h
              exact ⟨error, rfl, rfl, (Except.error.inj h).symm⟩

/-- A run does not stop the program unless a value is of a frame from elsewhere. -/
theorem exists_report (hs : s.interpreter.OwnFrame) {failure : Option Report}
    (h : (s.run source).1 = .error failure) : ∃ report, failure = some report := by
  obtain ⟨e, _, rfl⟩ | ⟨lexemes, _, ⟨e, _, rfl⟩ | ⟨e, error, _, heval, rfl⟩⟩ := failure_of_run h
  · exact ⟨_, rfl⟩
  · exact ⟨_, rfl⟩
  · obtain ⟨traceback, htraceback⟩ := Option.isSome_iff_exists.mp (hs.isSome_traceback? heval)
    rw [Report.ofEvalError?, htraceback]
    exact ⟨_, rfl⟩

/-- What a report is made of. -/
theorem report_of_run (h : (s.run source).1 = .error (some report)) :
    (∃ e, Token.scan source.start source.text = .error e ∧ report = .ofScanError source e) ∨
      ∃ lexemes, Token.scan source.start source.text = .ok lexemes ∧
        ((∃ e, Expr.ofLexemes? s.settings.maxDepth lexemes = .error e ∧ report = .ofSyntaxError source e) ∨
          ∃ e error traceback, Expr.ofLexemes? s.settings.maxDepth lexemes = .ok e ∧
            (s.interpreter.eval e).1 = .error error ∧ error.traceback? = some traceback ∧
            report = ⟨.runtime traceback, error.cause.message, error.span, source⟩) := by
  obtain ⟨e, hscan, hreport⟩ | ⟨lexemes, hscan, ⟨e, hread, hreport⟩ | ⟨e, error, hread, heval, hreport⟩⟩ :=
    failure_of_run h
  · exact .inl ⟨e, hscan, Option.some.inj hreport⟩
  · exact .inr ⟨lexemes, hscan, .inl ⟨e, hread, Option.some.inj hreport⟩⟩
  · obtain ⟨traceback, htraceback, rfl⟩ := Option.map_eq_some_iff.mp hreport.symm
    exact .inr ⟨lexemes, hscan, .inr ⟨e, error, traceback, hread, heval, htraceback, rfl⟩⟩

theorem liesIn_of_run (h : (s.run source).1 = .error (some report)) : report.span.LiesIn source := by
  obtain ⟨e, hscan, rfl⟩ | ⟨lexemes, hscan, ⟨e, hread, rfl⟩ | ⟨e, error, _, hread, heval, _, rfl⟩⟩ := report_of_run h
  · exact Token.liesIn_of_scan_error hscan
  · obtain ⟨l, hl, hspan⟩ := Token.syntaxError_span_mem hscan hread
    have hends := Lexeme.ends_sublist_places hl
    rw [← hspan] at hends
    exact Token.liesIn_of_scan hscan hends
  · have hends := ends_place_sublist s.interpreter hread
    rw [heval] at hends
    exact Token.liesIn_of_scan hscan hends

/-- With a single frame, a traceback is the line of the span in this frame. -/
theorem traceback?_of_run (hs : s.interpreter.SingleFrame) (h : (s.run source).1 = .error (some report)) :
    report.kind.traceback? =
      if report.kind.name = "Runtime Error" then some [⟨report.span.start.line, "<program>"⟩] else none := by
  obtain ⟨e, _, rfl⟩ | ⟨lexemes, _, ⟨e, _, rfl⟩ | ⟨e, error, traceback, _, heval, htraceback, rfl⟩⟩ := report_of_run h
  · exact traceback_of_scanError source e
  · rfl
  · rw [hs.traceback?_of_eval heval htraceback]
    rfl

/-- Where a run that fails is reported, after any operations on a new session that set no values of frames from
elsewhere. There is a report. Its span marks a part of the text that was run: both ends are places between characters,
in order, and are what reading the text up to there comes to. It starts on the first line. The report has a traceback
exactly if evaluation failed, and then it is the line on which the span starts, in the outermost frame. -/
theorem report_place {maxDepth : Nat} {ops : List Operation} (hops : ∀ op ∈ ops, op.SetsOwnFrame) {source : Source}
    {failure : Option Report} (h : ((ops.foldl perform { settings := { maxDepth } }).run source).1 = .error failure) :
    ∃ report, failure = some report ∧
      (∃ before piece, report.span.Marks source.start source.text.toList before piece) ∧
      report.span.start.offset ≤ report.span.stop.offset ∧
      report.span.stop.offset ≤ source.text.utf8ByteSize ∧
      report.span.start.line = source.firstLine ∧
      report.kind.traceback? =
        if report.kind.name = "Runtime Error" then some [⟨report.span.start.line, "<program>"⟩] else none := by
  have hframe := foldl_perform_ownFrame (s := { settings := { maxDepth } }) ownFrame_fresh hops
  obtain ⟨report, rfl⟩ := exists_report hframe h
  have hlies := liesIn_of_run h
  exact ⟨report, rfl, Span.marks_of_visits rfl hlies.visits, hlies.offset_le.1, hlies.offset_le.2, hlies.line_eq,
    traceback?_of_run hframe.singleFrame h⟩

/-- The least integer is set with a span of another text and bound again in an earlier line. Its negation overflows,
and is reported in the line that was run. -/
theorem report_place_overflow :
    let least : Operation := .set "x" { num := .int Int64.minValue, span := .emptyAt ⟨40, 9, 1⟩, frame := some ⟨0⟩ }
    let ops : List Operation := [least, .run ⟨"cells", "VAR y = x", 2⟩]
    let source : Source := ⟨"cells", "1 + -y", 3⟩
    let report : Report := ⟨.runtime [⟨3, "<program>"⟩], "Integer overflow", ⟨⟨5, 3, 5⟩, ⟨6, 3, 6⟩⟩, source⟩
    (∀ op ∈ ops, op.SetsOwnFrame) ∧
      ((ops.foldl perform { settings := { maxDepth := 10 } }).run source).1 = .error (some report) ∧
      (∃ before piece, report.span.Marks ⟨0, 3, 0⟩ source.text.toList before piece) ∧
      report.kind.traceback? = some [⟨report.span.start.line, "<program>"⟩] := by
  intro least ops source report
  have hops : ∀ op ∈ ops, op.SetsOwnFrame := by
    intro op hop
    obtain rfl | hop := List.mem_cons.mp hop
    · exact .inr rfl
    · obtain rfl := List.mem_singleton.mp hop
      trivial
  have hrun : ((ops.foldl perform { settings := { maxDepth := 10 } }).run source).1 = .error (some report) := by cbv
  obtain ⟨_, hreport, hmarks, _, _, _, htraceback⟩ := report_place hops hrun
  obtain rfl := Option.some.inj hreport
  exact ⟨hops, hrun, hmarks, htraceback⟩

end Session
end LineCalc
