import LineCalc.Parser

/-!
The command line: `[SCRIPT] [--max-depth N] [--pretty]`, with `--help` and `--version`. Arguments are read from
left to right. The value of an option, and a script, are checked only when the next known argument or the end is
reached, so an unknown argument right behind a bad value is the problem that is reported.
-/

namespace LineCalc.CommandLine

/-- What the command line asks for. -/
structure Options where
  script : Option String := none
  maxDepth : Nat := Parser.defaultLimit
  pretty : Bool := false
deriving DecidableEq, Repr

/-- Why there are no options. Asking for help or for the version ends the reading of arguments too. -/
inductive Refusal where
  | unknownArgument
  /-- An option without its value, or an empty script. -/
  | missingValue
  /-- A value that cannot be read. -/
  | invalidValue
  /-- A value for a flag. -/
  | needlessValue
  /-- An option or flag that was already given. -/
  | repeated
  | helpWanted
  | versionWanted
deriving DecidableEq, Repr

/-- The exit code of the program. -/
def Refusal.exitCode : Refusal → Nat
  | helpWanted => 0
  | versionWanted => 0
  | _ => 2

/-- An argument by its form. -/
inductive Argument where
  /-- `--`, behind which all arguments are words. -/
  | separator
  /-- `--name` or `--name=value`. -/
  | long (name : String) (value : Option String)
  /-- `-` and a first letter. -/
  | short (letter : Char)
  | word (text : String)
deriving DecidableEq, Repr

/-- The form of an argument. A lone `-` is a word. -/
def Argument.ofString (arg : String) : Argument :=
  match arg.toList with
  | ['-', '-'] => separator
  | '-' :: '-' :: cs =>
    long (String.ofList (cs.takeWhile (· ≠ '='))) (match cs.dropWhile (· ≠ '=') with
      | _ :: value => some (String.ofList value)
      | [] => none)
  | '-' :: c :: _ => short c
  | _ => word arg

/-- A depth: digits, perhaps behind a plus sign, of at most 64 bits. -/
def depth? (value : String) : Option Nat :=
  let digits := match value.toList with
    | '+' :: cs => cs
    | cs => cs
  let n := Nat.ofDigitChars 10 digits 0
  if !digits.isEmpty && digits.all Char.isDigit && decide (n < UInt64.size) then some n else none

/-- An argument that is taken but not checked yet. -/
inductive Pending where
  | depth (value : Option String)
  | script (path : String)
deriving DecidableEq, Repr

/-- The arguments read so far. -/
structure State where
  pending : Option Pending := none
  depth : Option Nat := none
  script : Option String := none
  pretty : Bool := false
  /-- Whether a word was taken as the script. -/
  hasScript : Bool := false
  /-- Whether a separator was read. -/
  wordsOnly : Bool := false
deriving DecidableEq, Repr

namespace State

def setDepth (s : State) (value : String) : Except Refusal State :=
  if s.depth.isSome then .error .repeated
  else
    match depth? value with
    | some n => .ok { s with depth := some n }
    | none => .error .invalidValue

/-- Checks the pending argument. -/
def settle (s : State) : Except Refusal State :=
  match s.pending with
  | none => .ok s
  | some (.depth none) => .error .missingValue
  | some (.depth (some value)) => { s with pending := none }.setDepth value
  | some (.script path) =>
    if path.isEmpty then .error .missingValue else .ok { s with pending := none, script := some path }

/-- Takes a word as the script, of which there is one. -/
def takeScript (s : State) (path : String) : Except Refusal State :=
  if s.hasScript then .error .unknownArgument
  else return { ← s.settle with pending := some (.script path), hasScript := true }

/-- Takes a word: as the value that an option waits for, or as the script. -/
def takeWord (s : State) (text : String) : Except Refusal State :=
  match s.pending with
  | some (.depth none) => .ok { s with pending := some (.depth (some text)) }
  | _ => s.takeScript text

/-- Takes a flag that ends the reading of arguments. -/
def stop (s : State) (wanted : Refusal) : Except Refusal State := do
  let _ ← s.settle
  throw wanted

def takeLong (s : State) : String → Option String → Except Refusal State
  | "max-depth", none => return { ← s.settle with pending := some (.depth none) }
  | "max-depth", some value => do (← s.settle).setDepth value
  | "pretty", none => do
    let s ← s.settle
    if s.pretty then throw .repeated else return { s with pretty := true }
  | "help", none => s.stop .helpWanted
  | "version", none => s.stop .versionWanted
  | "pretty", some _ => .error .needlessValue
  | "help", some _ => .error .needlessValue
  | "version", some _ => .error .needlessValue
  | _, _ => .error .unknownArgument

def take (s : State) (arg : String) : Except Refusal State :=
  if s.wordsOnly then s.takeScript arg
  else
    match Argument.ofString arg with
    | .separator => .ok { s with wordsOnly := true }
    | .long name value => s.takeLong name value
    | .short 'h' => s.stop .helpWanted
    | .short 'V' => s.stop .versionWanted
    | .short _ => .error .unknownArgument
    | .word text => s.takeWord text

end State

/-- Reads the arguments, without the program's name. -/
def read (args : List String) : Except Refusal Options := do
  let s ← (← args.foldlM State.take {}).settle
  return ⟨s.script, s.depth.getD Parser.defaultLimit, s.pretty⟩

end LineCalc.CommandLine
