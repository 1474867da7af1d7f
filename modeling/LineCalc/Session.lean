import LineCalc.Grammar.Read
import LineCalc.Report

/-!
Sessions: sources are run one after another over the same variables. A source that cannot be scanned or read
changes nothing; one that fails in evaluation keeps what it bound before.
-/

namespace LineCalc

/-- What the host chooses for a session. -/
structure Settings where
  maxDepth : Nat := Parser.defaultLimit
deriving DecidableEq, Repr

structure Session where
  interpreter : Interpreter := .fresh
  settings : Settings := {}

namespace Session

/-- Scans, reads and evaluates a source. A failure has a report, or else the program stops there. -/
def run (s : Session) (source : Source) : Except (Option Report) Value × Session :=
  match Token.scan source.start source.text with
  | .error e => (.error (some (.ofScanError source e)), s)
  | .ok lexemes =>
    match Expr.ofLexemes? s.settings.maxDepth lexemes with
    | .error e => (.error (some (.ofSyntaxError source e)), s)
    | .ok e =>
      let (result, interpreter) := s.interpreter.eval e
      (result.mapError (Report.ofEvalError? source), { s with interpreter })

section

variable {s : Session} {source : Source} {lexemes : List Lexeme}

theorem run_of_scan_error {e : ScanError} (h : Token.scan source.start source.text = .error e) :
    s.run source = (.error (some (.ofScanError source e)), s) := by
  rw [run, h]

theorem run_of_read_error {e : SyntaxError} (h : Token.scan source.start source.text = .ok lexemes)
    (hread : Expr.ofLexemes? s.settings.maxDepth lexemes = .error e) :
    s.run source = (.error (some (.ofSyntaxError source e)), s) := by
  rw [run, h]
  simp only [hread]

theorem run_of_read_ok {e : Expr} (h : Token.scan source.start source.text = .ok lexemes)
    (hread : Expr.ofLexemes? s.settings.maxDepth lexemes = .ok e) :
    s.run source = ((s.interpreter.eval e).1.mapError (Report.ofEvalError? source),
      { s with interpreter := (s.interpreter.eval e).2 }) := by
  rw [run, h]
  simp only [hread]

end

def get? (s : Session) (name : String) : Option Value := s.interpreter.get? name

def set (s : Session) (name : String) (value : Value) : Session :=
  { s with interpreter := s.interpreter.set name value }

def remove (s : Session) (name : String) : Option Value × Session :=
  let (value, interpreter) := s.interpreter.remove name
  (value, { s with interpreter })

end Session
end LineCalc
