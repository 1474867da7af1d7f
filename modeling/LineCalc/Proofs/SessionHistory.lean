import LineCalc.Proofs.EvaluationWalk
import LineCalc.Session

/-!
What a session remembers. Each operation is a list of events: a value set or removed is one, a run has one for
each assignment that it completes, in the order in which it does, and reading a name has none. A name has the
value that the last event about it left there (`session_history`). Nothing else is remembered.
-/

namespace LineCalc

/-- The expression that the source spells, if it does. -/
def Source.expression? (source : Source) (maxDepth : Nat) : Option Expr :=
  match Token.scan source.start source.text with
  | .error _ => none
  | .ok lexemes => (Expr.ofLexemes? maxDepth lexemes).toOption

/-- The assignments that a run of the source completes: those among the nodes that the walk over the
expression passes before one of them fails. A source that spells no expression makes none. -/
def Source.events (source : Source) (maxDepth : Nat) (names : Names) : List Event :=
  match source.expression? maxDepth with
  | none => []
  | some e => assignments (Walk.passed ⟨0⟩ ⟨names, []⟩ e.postorder)

namespace Session

/-- What the host can do with a session. -/
inductive Operation where
  | run (source : Source)
  | set (name : String) (value : Value)
  | remove (name : String)
  | get (name : String)

def perform (s : Session) : Operation → Session
  | .run source => (s.run source).2
  | .set name value => s.set name value
  | .remove name => (s.remove name).2
  | .get _ => s

def Operation.events (maxDepth : Nat) (names : Names) : Operation → List Event
  | run source => source.events maxDepth names
  | set name value => [.bound name value]
  | remove name => [.removed name]
  | get _ => []

/-- The events of the operations, one after another. What a run does depends on the names as the earlier
events left them. -/
def history (maxDepth : Nat) (names : Names) : List Operation → List Event
  | [] => []
  | op :: ops => op.events maxDepth names ++ history maxDepth (names.after (op.events maxDepth names)) ops

/-- Only `null` has a value. -/
def initially : Names := fun x => if "null" = x then some { num := .int 0, frame := some ⟨0⟩ } else none

variable {s : Session} {source : Source} {e : Expr} {maxDepth : Nat}

theorem run_of_none (h : source.expression? s.settings.maxDepth = none) :
    ∃ report, s.run source = (.error (some report), s) := by
  rw [Source.expression?] at h
  cases hscan : Token.scan source.start source.text with
  | error e => exact ⟨_, run_of_scan_error hscan⟩
  | ok lexemes =>
      simp only [hscan] at h
      cases hread : Expr.ofLexemes? s.settings.maxDepth lexemes with
      | error e => exact ⟨_, run_of_read_error hscan hread⟩
      | ok e =>
          rw [hread] at h
          cases h

theorem run_of_some (h : source.expression? s.settings.maxDepth = some e) :
    s.run source = ((s.interpreter.eval e).1.mapError (Report.ofEvalError? source),
      { s with interpreter := (s.interpreter.eval e).2 }) := by
  rw [Source.expression?] at h
  cases hscan : Token.scan source.start source.text with
  | error _ =>
      simp only [hscan] at h
      cases h
  | ok lexemes =>
      simp only [hscan] at h
      cases hread : Expr.ofLexemes? s.settings.maxDepth lexemes with
      | error _ =>
          rw [hread] at h
          cases h
      | ok e' =>
          rw [hread] at h
          cases h
          exact run_of_read_ok hscan hread

/-- What a run comes to and where it leaves the names, by the nodes that the walk passes. -/
theorem run_walks (hs : s.interpreter.SingleFrame) (h : source.expression? s.settings.maxDepth = some e) :
    let passed := Walk.passed ⟨0⟩ ⟨s.get?, []⟩ e.postorder
    (s.run source).2.get? = Names.after s.get? (assignments passed) ∧
      passed.map Prod.fst <+: e.postorder ∧
      (s.run source).1.toOption =
        if passed.map Prod.fst = e.postorder then passed.getLast?.map Prod.snd else none := by
  intro passed
  have hwalks := Interpreter.eval_walks hs.frame_eq e []
  rw [run_of_some h]
  rcases heval : s.interpreter.eval e with ⟨error | v, i⟩ <;> rw [heval] at hwalks <;>
    obtain ⟨trace, hwalk⟩ := hwalks
  · have hpassed : passed = trace := hwalk.passed_eq
    rw [hpassed]
    refine ⟨hwalk.names_eq, hwalk.map_fst.1, ?_⟩
    rw [if_neg hwalk.map_fst.2]
    rfl
  · have hpassed : passed = trace := hwalk.passed_eq
    have hlast := hwalk.head?_stack
    rw [List.head?_nil, Option.or_none] at hlast
    rw [hpassed, hwalk.map_fst, if_pos rfl, ← hlast]
    exact ⟨hwalk.names_eq, List.prefix_rfl, rfl⟩

/-- One operation: the names change by its events, and nothing else changes. -/
theorem perform_keeps (hs : s.interpreter.SingleFrame) (op : Operation) :
    (s.perform op).get? = Names.after s.get? (op.events s.settings.maxDepth s.get?) ∧
      (s.perform op).interpreter.SingleFrame ∧ (s.perform op).settings = s.settings := by
  cases op with
  | run source =>
      rw [perform, Operation.events, Source.events]
      cases h : source.expression? s.settings.maxDepth with
      | none =>
          obtain ⟨report, hrun⟩ := run_of_none h
          rw [hrun]
          exact ⟨rfl, hs, rfl⟩
      | some e =>
          refine ⟨(run_walks hs h).1, ?_⟩
          rw [run_of_some h]
          exact ⟨hs.eval e, rfl⟩
  | set name value => exact ⟨Interpreter.get?_set_eq_after name value, hs.set name value, rfl⟩
  | remove name =>
      refine ⟨?_, hs.remove name, rfl⟩
      funext x
      rw [Operation.events, Names.after_singleton]
      exact hs.get?_remove name x
  | get name => exact ⟨rfl, hs, rfl⟩

/-- All operations, from any session that has a single frame. -/
theorem foldl_perform_keeps (hs : s.interpreter.SingleFrame) (ops : List Operation) :
    (ops.foldl perform s).get? = Names.after s.get? (history s.settings.maxDepth s.get? ops) ∧
      (ops.foldl perform s).interpreter.SingleFrame ∧ (ops.foldl perform s).settings = s.settings := by
  induction ops generalizing s with
  | nil => exact ⟨rfl, hs, rfl⟩
  | cons op ops ih =>
      obtain ⟨hnames, hframe, hsettings⟩ := perform_keeps hs op
      obtain ⟨hnames', hframe', hsettings'⟩ := ih hframe
      rw [hnames, hsettings, ← Names.after_append] at hnames'
      exact ⟨hnames', hframe', hsettings'.trans hsettings⟩

/-- After any operations on a new session, a name has the value that the last event about it left there. The
frames and scopes are still those of a new session. A source that spells no expression is refused and changes
nothing. Of any other one, a run passes the nodes up to the first that fails, both operands of every operator
among them. The assignments among the nodes passed are its events, and no others; if all nodes are passed, the
value of the last one, which is the whole expression, is its result, and otherwise there is none. -/
theorem session_history (maxDepth : Nat) (ops : List Operation) :
    let s := ops.foldl perform { settings := { maxDepth } }
    (∀ x, s.get? x = initially.after (history maxDepth initially ops) x) ∧
      s.interpreter.SingleFrame ∧ s.settings = { maxDepth } ∧
      ∀ source : Source, match source.expression? maxDepth with
        | none => ∃ report, s.run source = (.error (some report), s)
        | some e =>
          let passed := Walk.passed ⟨0⟩ ⟨s.get?, []⟩ e.postorder
          (s.run source).2.get? = Names.after s.get? (assignments passed) ∧
            passed.map Prod.fst <+: e.postorder ∧
            (s.run source).1.toOption =
              if passed.map Prod.fst = e.postorder then passed.getLast?.map Prod.snd else none := by
  intro s
  have hinitially : Session.get? { settings := { maxDepth } } = initially := funext Interpreter.get?_fresh
  obtain ⟨hnames, hframe, hsettings⟩ := foldl_perform_keeps (s := { settings := { maxDepth } })
    Interpreter.singleFrame_fresh ops
  rw [hinitially] at hnames
  have hdepth : s.settings.maxDepth = maxDepth := congrArg Settings.maxDepth hsettings
  refine ⟨fun x => congrFun hnames x, hframe, hsettings, ?_⟩
  intro source
  cases h : source.expression? maxDepth with
  | none => exact run_of_none (by rw [hdepth, h])
  | some e => exact run_walks hframe (by rw [hdepth, h])

end Session
end LineCalc
