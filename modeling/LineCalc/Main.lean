import LineCalc.Shell

/-!
The program: reads its arguments, then runs a script or the lines that are typed in.
-/

namespace LineCalc

def usage : String := "Usage: linecalc [--max-depth N] [--pretty] [SCRIPT]"

def version : String := "linecalc 1.0"

/-- Writes out what a run shows. -/
def Shell.Transcript.emit (t : Shell.Transcript) : IO UInt32 := do
  (← IO.getStdout).putStr t.stdout
  (← IO.getStderr).putStr t.stderr
  return UInt32.ofNat t.code

/-- Reads a script. -/
def readScript (path : String) : IO (Except Shell.ReadFailure String) := do
  try
    return .ok (← IO.FS.readFile path)
  catch
    | .noFileOrDirectory .. => return .error .notFound
    | e => return .error (.other (toString e))

/-- Runs the lines of the standard input as they come. -/
partial def interact (o : CommandLine.Options) (s : Session) : IO UInt32 := do
  let typed ← (← IO.getStdin).getLine
  if typed.isEmpty then return 0
  let mut s := s
  for line in Text.typedLines typed.toList do
    let (event, next) := Shell.runLine s ⟨Shell.stdinLabel, String.ofList line, 0⟩
    let _ ← (Shell.Transcript.ofEvents o.pretty event.toList 0).emit
    if let some .stopped := event then return UInt32.ofNat Shell.Event.stopped.code
    s := next
  interact o s

end LineCalc

open LineCalc in
def main (args : List String) : IO UInt32 := do
  match CommandLine.read args with
  | .error refusal =>
    match refusal with
    | .helpWanted => IO.println usage
    | .versionWanted => IO.println version
    | _ => IO.eprintln usage
    return UInt32.ofNat refusal.exitCode
  | .ok o =>
    match o.script with
    | some name => (Shell.script o name (← readScript name)).emit
    | none => interact o (Shell.session o)
