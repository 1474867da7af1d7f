import LineCalc.CommandLine
import LineCalc.Report.Drawing
import LineCalc.Session

/-!
Running lines. A script and an interactive session both run lines one after another in one session and skip blank
lines. A script stops at the first line that fails and gives line numbers of the whole text; an interactive session
goes on, and each line is a text of its own.
-/

namespace LineCalc.Shell

/-- What running a line may come to. -/
inductive Event where
  | printed (value : Value)
  | reported (report : Report)
  /-- The program stopped without a report. -/
  | stopped

/-- What a program wrote, and its exit code. -/
structure Transcript where
  stdout : String
  stderr : String
  code : Nat
deriving DecidableEq, Repr

namespace Event

/-- The exit code of a script that ends with the event. -/
def code : Event → Nat
  | printed _ => 0
  | reported _ => 1
  | stopped => 101

/-- What an event writes to the standard output. -/
def stdout : Event → String
  | printed value => value.num.resultText ++ "\n"
  | reported _ => ""
  | stopped => ""

/-- What an event writes to the standard error. -/
def stderr (pretty : Bool) : Event → String
  | printed _ => ""
  | reported report => if pretty then report.drawing true else report.text ++ "\n"
  | stopped => ""

end Event

/-- The transcript of a run that ends with the given code. -/
def Transcript.ofEvents (pretty : Bool) (events : List Event) (code : Nat) : Transcript :=
  ⟨String.join (events.map Event.stdout), String.join (events.map (Event.stderr pretty)), code⟩

/-- Runs a line, unless it is blank. -/
def runLine (s : Session) (source : Source) : Option Event × Session :=
  if source.text.toList.all Text.isBlank then (none, s)
  else
    match s.run source with
    | (.ok value, s) => (some (.printed value), s)
    | (.error (some report), s) => (some (.reported report), s)
    | (.error none, s) => (some .stopped, s)

/-- The label of lines that are typed in. -/
def stdinLabel : String := "<stdin>"

/-- Runs the lines of a script from line `n` on, up to the first that fails. -/
def scriptEvents (label : String) (s : Session) (n : Nat) : List (List Char) → List Event
  | [] => []
  | line :: lines =>
    match runLine s ⟨label, String.ofList line, UInt64.ofNat n⟩ with
    | (none, s) => scriptEvents label s (n + 1) lines
    | (some (.printed value), s) => .printed value :: scriptEvents label s (n + 1) lines
    | (some failure, _) => [failure]

/-- Runs lines that are typed in. -/
def replEvents (s : Session) : List (List Char) → List Event
  | [] => []
  | line :: lines =>
    match runLine s ⟨stdinLabel, String.ofList line, 0⟩ with
    | (none, s) => replEvents s lines
    | (some .stopped, _) => [.stopped]
    | (some event, s) => event :: replEvents s lines

/-- A session with the settings of the command line. -/
def session (o : CommandLine.Options) : Session := { settings := ⟨o.maxDepth⟩ }

/-- Why a script could not be read. -/
inductive ReadFailure where
  | notFound
  | other (reason : String)

def ReadFailure.message : ReadFailure → String
  | notFound => "No such file or directory (os error 2)"
  | other reason => reason

/-- The transcript of running a script. -/
def script (o : CommandLine.Options) (name : String) : Except ReadFailure String → Transcript
  | .error failure => ⟨"", "Error: script `" ++ name ++ "`\n\nCaused by:\n    " ++ failure.message ++ "\n", 1⟩
  | .ok text =>
    let events := scriptEvents name (session o) 0 (Text.lines text.toList)
    .ofEvents o.pretty events (events.getLast?.elim 0 Event.code)

/-- The transcript of an interactive session in which the lines are typed. -/
def repl (o : CommandLine.Options) (lines : List (List Char)) : Transcript :=
  let events := replEvents (session o) lines
  .ofEvents o.pretty events (match events.getLast? with
    | some .stopped => Event.stopped.code
    | _ => 0)

end LineCalc.Shell
