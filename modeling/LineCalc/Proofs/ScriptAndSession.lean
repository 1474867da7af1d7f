import LineCalc.Proofs.FirstLine
import LineCalc.Shell

/-!
Scripts and interactive sessions. Both run the lines of a text one after another, and up to the first line that fails
they keep step: a script only gives the lines other numbers and another label, which no value depends on
(`Runs.typed`). Then the script is over, while the session reports the same failure and goes on with the lines that
are left.
-/

namespace LineCalc

/-- The report under another label. -/
def Report.relabel (label : String) (r : Report) : Report := { r with source := { r.source with label } }

/-- The label is for reports only. -/
theorem Session.run_relabel (s : Session) (source : Source) (label : String) :
    s.run { source with label } = ((s.run source).1.mapError (Option.map (Report.relabel label)), (s.run source).2) := by
  cases hscan : Token.scan source.start source.text with
  | error e =>
      have hscan' : Token.scan ({ source with label } : Source).start source.text = .error e := hscan
      rw [run_of_scan_error hscan, run_of_scan_error hscan']
      rfl
  | ok lexemes =>
      have hscan' : Token.scan ({ source with label } : Source).start source.text = .ok lexemes := hscan
      cases hread : Expr.ofLexemes? s.settings.maxDepth lexemes with
      | error e =>
          rw [run_of_read_error hscan hread, run_of_read_error hscan' hread]
          rfl
      | ok e =>
          rw [run_of_read_ok hscan hread, run_of_read_ok hscan' hread]
          cases (s.interpreter.eval e).1 with
          | ok v => rfl
          | error error =>
              obtain ⟨cause, span, traceback⟩ := error
              cases traceback <;> rfl

/-! ### Lines -/

namespace Text

theorem newline_notMem_of_mem_pieces {cs piece : List Char} (h : piece ∈ pieces cs) : '\n' ∉ piece := by
  induction cs generalizing piece with
  | nil =>
      rw [List.mem_singleton.mp h]
      exact List.not_mem_nil
  | cons c cs ih =>
      by_cases hc : c = '\n'
      · subst hc
        obtain rfl | h := List.mem_cons.mp h
        · exact List.not_mem_nil
        · exact ih h
      · rw [pieces_cons hc] at h
        cases hpieces : pieces cs <;> rw [hpieces] at h ih <;> rw [consHead] at h
        · rw [List.mem_singleton.mp h, List.mem_singleton]
          exact Ne.symm hc
        · obtain rfl | h := List.mem_cons.mp h
          · have hhead := ih List.mem_cons_self
            simp [Ne.symm hc, hhead]
          · exact ih (List.mem_cons_of_mem _ h)

theorem newline_notMem_of_mem_lines {cs line : List Char} (h : line ∈ lines cs) : '\n' ∉ line := by
  rw [lines] at h
  obtain h | h := List.mem_append.mp h
  · obtain ⟨piece, hpiece, rfl⟩ := List.mem_map.mp h
    have hnotMem := newline_notMem_of_mem_pieces (List.mem_of_mem_dropLast hpiece)
    rw [dropReturn]
    split
    · exact fun hmem => hnotMem (List.mem_of_mem_dropLast hmem)
    · exact hnotMem
  · split at h
    · next c last hlast =>
      rw [List.mem_singleton.mp h]
      exact newline_notMem_of_mem_pieces (List.mem_of_getLast? hlast)
    · cases h

end Text

namespace Shell

/-- How running lines ended: behind the last one, or at the first that failed. Then `left` are the lines behind it. -/
inductive Stop where
  | finished (s : Session)
  | failed (number : Nat) (report : Report) (s : Session) (left : List (List Char))

/-- What a script shows of the end. -/
def Stop.scriptEvents : Stop → List Event
  | finished _ => []
  | failed _ report _ _ => [.reported report]

/-- What an interactive session shows of the end, and of what it goes on with. -/
def Stop.replEvents : Stop → List Event
  | finished _ => []
  | failed _ report s left => .reported report :: Shell.replEvents s left

/-- The lines are run one after another, from number `n` on, up to the first that fails. Blank lines are only counted.
The others have the given values. -/
inductive Runs (source : Nat → List Char → Source) : Session → Nat → List (List Char) → List Value → Stop → Prop
  | done {s n} : Runs source s n [] [] (.finished s)
  | blank {s n line lines values stop} (hblank : line.all Text.isBlank = true)
      (hmore : Runs source s (n + 1) lines values stop) : Runs source s n (line :: lines) values stop
  | value {s n line lines v t values stop} (hblank : line.all Text.isBlank = false)
      (hrun : s.run (source n line) = (.ok v, t)) (hmore : Runs source t (n + 1) lines values stop) :
      Runs source s n (line :: lines) (v :: values) stop
  | fails {s n line lines report t} (hblank : line.all Text.isBlank = false)
      (hrun : s.run (source n line) = (.error (some report), t)) :
      Runs source s n (line :: lines) [] (.failed n report t lines)

/-- A line of a script has the number that it has there. -/
def scriptLine (name : String) (n : Nat) (line : List Char) : Source := ⟨name, String.ofList line, UInt64.ofNat n⟩

/-- A line that is typed in is a text of its own. -/
def typedLine (_ : Nat) (line : List Char) : Source := ⟨stdinLabel, String.ofList line, 0⟩

/-- The values as they are shown, one on each line. -/
def shown (values : List Value) : String := String.join (values.map fun v => v.num.resultText ++ "\n")

variable {source : Nat → List Char → Source} {name : String} {s t u : Session} {n : Nat} {line : List Char}
  {lines : List (List Char)} {values : List Value} {stop : Stop} {report : Report} {v : Value}

theorem shown_congr {values values' : List Value} (h : values'.map Value.num = values.map Value.num) :
    shown values' = shown values := by
  have hnums (values : List Value) :
      shown values = String.join ((values.map Value.num).map (·.resultText ++ "\n")) := by
    rw [shown, List.map_map]
    rfl
  rw [hnums, hnums, h]

/-- The lines are run unless a value is of a frame from elsewhere. -/
theorem Runs.total (source : Nat → List Char → Source) (hs : s.interpreter.OwnFrame) (n : Nat)
    (lines : List (List Char)) : ∃ values stop, Runs source s n lines values stop := by
  induction lines generalizing s n with
  | nil => exact ⟨[], _, .done⟩
  | cons line lines ih =>
      cases hblank : line.all Text.isBlank with
      | true =>
          obtain ⟨values, stop, h⟩ := ih hs (n + 1)
          exact ⟨values, stop, .blank hblank h⟩
      | false =>
          have hafter := Session.run_ownFrame hs (source n line)
          rcases hrun : s.run (source n line) with ⟨failure | v, t⟩ <;> rw [hrun] at hafter
          · obtain ⟨report, rfl⟩ := Session.exists_report hs (congrArg Prod.fst hrun)
            exact ⟨[], _, .fails hblank hrun⟩
          · obtain ⟨values, stop, h⟩ := ih hafter (n + 1)
            exact ⟨v :: values, stop, .value hblank hrun h⟩

/-! ### The two programs -/

section

variable {source : Source}

theorem runLine_of_blank (h : source.text.toList.all Text.isBlank = true) : runLine s source = (none, s) := if_pos h

theorem runLine_of_ok (h : source.text.toList.all Text.isBlank = false) (hrun : s.run source = (.ok v, t)) :
    runLine s source = (some (.printed v), t) := by
  rw [runLine, h, hrun]
  rfl

theorem runLine_of_error (h : source.text.toList.all Text.isBlank = false) (hrun : s.run source = (.error (some report), t)) :
    runLine s source = (some (.reported report), t) := by
  rw [runLine, h, hrun]
  rfl

end

theorem Runs.scriptEvents_eq (h : Runs (scriptLine name) s n lines values stop) :
    scriptEvents name s n lines = values.map .printed ++ stop.scriptEvents := by
  induction h with
  | done => rfl
  | blank hblank _ ih =>
      rw [scriptEvents, ← scriptLine, runLine_of_blank (by rwa [scriptLine, String.toList_ofList])]
      exact ih
  | value hblank hrun _ ih =>
      rw [scriptEvents, ← scriptLine, runLine_of_ok (by rwa [scriptLine, String.toList_ofList]) hrun]
      exact congrArg _ ih
  | fails hblank hrun =>
      rw [scriptEvents, ← scriptLine, runLine_of_error (by rwa [scriptLine, String.toList_ofList]) hrun]
      rfl

theorem Runs.replEvents_eq (h : Runs typedLine s n lines values stop) :
    replEvents s lines = values.map .printed ++ stop.replEvents := by
  have hline (n : Nat) (line : List Char) : (⟨stdinLabel, String.ofList line, 0⟩ : Source) = typedLine n line := rfl
  induction h with
  | done => rfl
  | @blank _ n _ _ _ _ hblank _ ih =>
      rw [replEvents, hline n, runLine_of_blank (by rwa [typedLine, String.toList_ofList])]
      exact ih
  | @value _ n _ _ _ _ _ _ hblank hrun _ ih =>
      rw [replEvents, hline n, runLine_of_ok (by rwa [typedLine, String.toList_ofList]) hrun]
      exact congrArg _ ih
  | @fails _ n _ _ _ _ hblank hrun =>
      rw [replEvents, hline n, runLine_of_error (by rwa [typedLine, String.toList_ofList]) hrun]
      rfl

/-- The values are written to the standard output, in front of everything else. -/
theorem Transcript.ofEvents_printed (pretty : Bool) (values : List Value) (events : List Event) (code : Nat) :
    ofEvents pretty (values.map .printed ++ events) code =
      ⟨shown values ++ (ofEvents pretty events code).stdout, (ofEvents pretty events code).stderr, code⟩ := by
  induction values with
  | nil => simp [ofEvents, shown]
  | cons v values ih =>
      simp only [ofEvents, shown, Transcript.mk.injEq, List.map_cons, List.cons_append, String.join_cons, and_true]
        at ih ⊢
      rw [ih.1, ih.2, String.append_assoc]
      exact ⟨rfl, String.empty_append⟩

theorem Transcript.ofEvents_nil (code : Nat) : ofEvents false [] code = ⟨"", "", code⟩ := rfl

/-- A report is written to the standard error, in front of everything else. -/
theorem Transcript.ofEvents_reported (report : Report) (events : List Event) (code : Nat) :
    ofEvents false (.reported report :: events) code =
      ⟨(ofEvents false events code).stdout, report.text ++ "\n" ++ (ofEvents false events code).stderr, code⟩ := by
  simp [ofEvents, Event.stdout, Event.stderr]

/-- A line does not stop the program unless a value is of a frame from elsewhere. -/
theorem runLine_ownFrame (hs : s.interpreter.OwnFrame) (source : Source) :
    (runLine s source).1 ≠ some .stopped ∧ (runLine s source).2.interpreter.OwnFrame := by
  have hafter := Session.run_ownFrame hs source
  cases hblank : source.text.toList.all Text.isBlank with
  | true =>
      rw [runLine_of_blank hblank]
      exact ⟨nofun, hs⟩
  | false =>
      rcases hrun : s.run source with ⟨failure | v, t⟩ <;> rw [hrun] at hafter
      · obtain ⟨report, rfl⟩ := Session.exists_report hs (congrArg Prod.fst hrun)
        rw [runLine_of_error hblank hrun]
        exact ⟨nofun, hafter⟩
      · rw [runLine_of_ok hblank hrun]
        exact ⟨nofun, hafter⟩

theorem stopped_notMem_replEvents (hs : s.interpreter.OwnFrame) (lines : List (List Char)) :
    .stopped ∉ replEvents s lines := by
  induction lines generalizing s with
  | nil => exact List.not_mem_nil
  | cons line lines ih =>
      have hline := runLine_ownFrame hs ⟨stdinLabel, String.ofList line, 0⟩
      rcases hrun : runLine s ⟨stdinLabel, String.ofList line, 0⟩ with ⟨_ | event, t⟩ <;> rw [hrun] at hline
      · rw [replEvents, hrun]
        exact ih hline.2
      · rw [replEvents, hrun]
        cases event with
        | printed | reported => exact List.not_mem_cons_of_ne_of_not_mem nofun (ih hline.2)
        | stopped => exact absurd rfl hline.1

section

variable {o : CommandLine.Options} {text : String}

/-- The exit code of a script that ends so. -/
def Stop.code : Stop → Nat
  | finished _ => 0
  | failed .. => 1

theorem Runs.script_eq (h : Runs (scriptLine name) (session o) 0 (Text.lines text.toList) values stop)
    (hpretty : o.pretty = false) :
    script o name (.ok text) = .ofEvents false (values.map .printed ++ stop.scriptEvents) stop.code := by
  have hcode : (values.map Event.printed ++ stop.scriptEvents).getLast?.elim 0 Event.code = stop.code := by
    cases stop with
    | finished s =>
        rw [Stop.scriptEvents, List.append_nil, List.getLast?_map]
        cases values.getLast? <;> rfl
    | failed number report s left =>
        rw [Stop.scriptEvents, List.getLast?_concat]
        rfl
  rw [script, h.scriptEvents_eq, hpretty, hcode]

theorem Runs.repl_eq (h : Runs typedLine (session o) 0 lines values stop) (hpretty : o.pretty = false) :
    repl o lines = .ofEvents false (values.map .printed ++ stop.replEvents) 0 := by
  have hstopped := stopped_notMem_replEvents (s := session o) Session.ownFrame_fresh lines
  rw [repl, hpretty]
  rw [h.replEvents_eq] at hstopped ⊢
  split
  · next hlast => exact absurd (List.mem_of_getLast? hlast) hstopped
  · rfl

end

/-! ### The same lines -/

/-- The ends of a session and of a script over the same lines: at the same line, in sessions that are alike, with the
same report but for the label and the line numbers. -/
inductive Stop.Typed : Stop → Stop → Prop
  | finished {s t : Session} (h : s.Alike t) : Typed (.finished s) (.finished t)
  | failed {n report report' left} {s t : Session}
      (hreport : report.relabel stdinLabel = report'.later (UInt64.ofNat n))
      (h : s.Alike t) : Typed (.failed n report' s left) (.failed n report t left)

theorem run_typedLine (h : u.Alike t) (name : String) (n : Nat) (line : List Char) :
    BothEnd (Value.AlikeAt (UInt64.ofNat n))
        (fun failure' failure => failure.map (Report.relabel stdinLabel) = failure'.map (Report.later (UInt64.ofNat n)))
        (u.run (typedLine n line)).1 (t.run (scriptLine name n line)).1 ∧
      (u.run (typedLine n line)).2.Alike (t.run (scriptLine name n line)).2 := by
  have hsource : (typedLine n line).later (UInt64.ofNat n) = { scriptLine name n line with label := stdinLabel } := by
    simp [Source.later, typedLine, scriptLine]
  obtain ⟨hresult, hafter⟩ := Session.run_alike (n := UInt64.ofNat n) h (typedLine n line)
  rw [hsource, t.run_relabel (scriptLine name n line)] at hresult hafter
  refine ⟨?_, hafter⟩
  generalize (u.run (typedLine n line)).1 = r', (t.run (scriptLine name n line)).1 = r at hresult
  cases r with
  | ok v =>
      cases hresult with
      | ok hvalue => exact .ok hvalue
  | error failure =>
      cases hresult with
      | error hfailure => exact .error hfailure

/-- A session that is fed the lines of a script keeps step with it. -/
theorem Runs.typed (h : Runs (scriptLine name) t n lines values stop) (halike : u.Alike t) :
    ∃ values' stop', Runs typedLine u n lines values' stop' ∧ values'.map Value.num = values.map Value.num ∧
      stop'.Typed stop := by
  -- The two sessions stay alike, which is all that the next line needs. Its number is the shift.
  induction h generalizing u with
  | done => exact ⟨[], _, .done, rfl, .finished halike⟩
  | blank hblank _ ih =>
      obtain ⟨values', stop', hruns, hnums, htyped⟩ := ih halike
      exact ⟨values', stop', .blank hblank hruns, hnums, htyped⟩
  | @value t n line _ _ _ _ _ hblank hrun _ ih =>
      obtain ⟨hresult, hafter⟩ := run_typedLine halike name n line
      rw [hrun] at hresult hafter
      rcases hrun' : u.run (typedLine n line) with ⟨report' | v', u'⟩ <;> rw [hrun'] at hresult hafter <;> cases hresult
      next hvalue =>
      obtain ⟨values', stop', hruns, hnums, htyped⟩ := ih hafter
      refine ⟨v' :: values', stop', .value hblank hrun' hruns, ?_, htyped⟩
      rw [List.map_cons, List.map_cons, hnums, hvalue.num_eq]
  | @fails t n line _ _ _ hblank hrun =>
      obtain ⟨hresult, hafter⟩ := run_typedLine halike name n line
      rw [hrun] at hresult hafter
      rcases hrun' : u.run (typedLine n line) with ⟨report' | v', u'⟩ <;> rw [hrun'] at hresult hafter <;> cases hresult
      next hfailure =>
      obtain ⟨report', rfl, hreport⟩ := Option.map_eq_some_iff.mp hfailure.symm
      exact ⟨[], _, .fails hblank hrun', rfl, .failed hreport.symm hafter⟩

/-- A run that fails does so at the line with the number that it says. -/
theorem Runs.line_of_failed (h : Runs source s n lines values stop) {number : Nat} {left : List (List Char)}
    (hstop : stop = .failed number report t left) :
    ∃ before line, lines = before ++ line :: left ∧ number = n + before.length := by
  induction h with
  | done => cases hstop
  | @blank _ _ line _ _ _ _ _ ih | @value _ _ line _ _ _ _ _ _ _ _ ih =>
      obtain ⟨before, line', rfl, rfl⟩ := ih hstop
      exact ⟨line :: before, line', rfl, by rw [List.length_cons]; omega⟩
  | fails =>
      cases hstop
      exact ⟨[], _, rfl, rfl⟩

/-- Where a run over lines that are typed in fails, all line numbers of the report are exact. -/
theorem Runs.furtherDown (h : Runs typedLine s n lines values stop) (hs : s.interpreter.OwnFrame)
    (hlines : ∀ line ∈ lines, '\n' ∉ line) {number : Nat} {left : List (List Char)}
    (hstop : stop = .failed number report t left) (m : UInt64) : report.FurtherDown m (report.later m) := by
  induction h with
  | done => cases hstop
  | blank _ _ ih => exact ih hs (List.forall_mem_cons.mp hlines).2 hstop
  | @value _ n line _ _ _ _ _ _ hrun _ ih =>
      have hafter := Session.run_ownFrame hs (typedLine n line)
      rw [hrun] at hafter
      exact ih hafter (List.forall_mem_cons.mp hlines).2 hstop
  | @fails _ _ line _ _ _ _ hrun =>
      cases hstop
      have hline : '\n' ∉ (String.ofList line).toList := by
        rw [String.toList_ofList]
        exact hlines line List.mem_cons_self
      exact Session.furtherDown_of_run hs.singleFrame (.inr (Token.not_stopsAtNewline hline)) (congrArg Prod.fst hrun)

end Shell

open Shell

/-- A script and an interactive session that is fed its lines agree, provided that reports are not drawn. The lines run
up to the first that fails. If none does, both programs show the values and end with code 0. Otherwise the script shows
the values before the line that fails and its report, and ends with code 1. The session shows these values too, and its
first report is the same but for the label and for line numbers that are smaller by exactly the number of the line. The
names have the same numbers then, and the session goes on with the lines that are left and ends with code 0. -/
theorem script_and_session {o : CommandLine.Options} (hpretty : o.pretty = false) (name text : String) :
    let lines := Text.lines text.toList
    (∃ values stop, Runs (scriptLine name) (session o) 0 lines values stop) ∧
      ∀ values stop, Runs (scriptLine name) (session o) 0 lines values stop →
        match stop with
        | .finished _ => script o name (.ok text) = ⟨shown values, "", 0⟩ ∧ repl o lines = ⟨shown values, "", 0⟩
        | .failed number report s left =>
          (∃ before line, lines = before ++ line :: left ∧ number = before.length) ∧
          script o name (.ok text) = ⟨shown values, report.text ++ "\n", 1⟩ ∧
          ∃ values' report' s', Runs typedLine (session o) 0 lines values' (.failed number report' s' left) ∧
            values'.map Value.num = values.map Value.num ∧
            report.relabel stdinLabel = report'.later (UInt64.ofNat number) ∧
            report'.FurtherDown (UInt64.ofNat number) (report.relabel stdinLabel) ∧
            (∀ x, (s.get? x).map Value.num = (s'.get? x).map Value.num) ∧
            let more := Transcript.ofEvents false (replEvents s' left) 0
            repl o lines = ⟨shown values ++ more.stdout, report'.text ++ "\n" ++ more.stderr, 0⟩ := by
  intro lines
  have hframe : (session o).interpreter.OwnFrame := Session.ownFrame_fresh
  refine ⟨Runs.total _ hframe _ _, ?_⟩
  intro values stop hruns
  obtain ⟨values', stop', hruns', hnums, htyped⟩ := hruns.typed (.refl hframe.singleFrame)
  have hscript := hruns.script_eq hpretty
  have hrepl := hruns'.repl_eq hpretty
  rw [Transcript.ofEvents_printed] at hscript hrepl
  rw [shown_congr hnums] at hrepl
  cases htyped with
  | finished =>
      rw [hscript, hrepl]
      simp [Stop.scriptEvents, Stop.replEvents, Stop.code, Transcript.ofEvents_nil]
  | @failed number report report' left s' s hreport halike =>
      obtain ⟨before, line, hbefore, hnumber⟩ := hruns.line_of_failed rfl
      rw [Nat.zero_add] at hnumber
      have hlines : ∀ line ∈ lines, '\n' ∉ line := fun _ => Text.newline_notMem_of_mem_lines
      have hexact := hruns'.furtherDown hframe hlines rfl (UInt64.ofNat number)
      rw [← hreport] at hexact
      refine ⟨⟨before, line, hbefore, hnumber⟩, ?_, values', report', s', hruns', hnums, hreport, hexact,
        halike.map_num, ?_⟩
      · rw [hscript, Stop.scriptEvents, Transcript.ofEvents_reported]
        simp [Transcript.ofEvents_nil, Stop.code]
      · rw [hrepl, Stop.replEvents, Transcript.ofEvents_reported]

theorem script_and_session_undefined :
    let text := "VAR x = 2\n\ny\nx"
    ∃ (report report' : Report) (more : Transcript),
      script {} "a" (.ok text) = ⟨"2\n", report.text ++ "\n", 1⟩ ∧
        report'.FurtherDown 2 (report.relabel stdinLabel) ∧
        repl {} (Text.lines text.toList) = ⟨"2\n" ++ more.stdout, report'.text ++ "\n" ++ more.stderr, 0⟩ := by
  intro text
  have hlines : Text.lines text.toList = ["VAR x = 2".toList, [], ['y'], ['x']] := by decide
  let v : Value := { num := .int 2, span := ⟨⟨8, 0, 8⟩, ⟨9, 0, 9⟩⟩, frame := some ⟨0⟩ }
  let report : Report := ⟨.runtime [⟨2, "<program>"⟩], "'y' is not defined", ⟨⟨0, 2, 0⟩, ⟨1, 2, 1⟩⟩, ⟨"a", "y", 2⟩⟩
  let t := ((session {}).run (scriptLine "a" 0 "VAR x = 2".toList)).2
  have hassign : ((session {}).run (scriptLine "a" 0 "VAR x = 2".toList)).1 = .ok v := by cbv
  have hundefined : (t.run (scriptLine "a" 2 ['y'])).1 = .error (some report) := by
    show ((((session {}).run (scriptLine "a" 0 "VAR x = 2".toList)).2).run (scriptLine "a" 2 ['y'])).1 = _
    cbv
  have hruns : Runs (scriptLine "a") (session {}) 0 (Text.lines text.toList) [v]
      (.failed 2 report (t.run (scriptLine "a" 2 ['y'])).2 [['x']]) := by
    rw [hlines]
    exact .value (by decide) (Prod.ext hassign rfl) (.blank rfl (.fails (by decide) (Prod.ext hundefined rfl)))
  obtain ⟨_, hagree⟩ := script_and_session (o := {}) rfl "a" text
  obtain ⟨_, hscript, _, report', s', _, _, _, hreport, _, hrepl⟩ := hagree _ _ hruns
  have hshown : shown [v] = "2\n" := by decide
  rw [hshown] at hscript hrepl
  exact ⟨report, report', _, hscript, hreport, hrepl⟩

end LineCalc
