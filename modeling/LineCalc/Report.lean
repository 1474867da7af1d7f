import LineCalc.Grammar.Read
import LineCalc.Interpreter
import LineCalc.Report.Excerpt
import LineCalc.Source
import LineCalc.Token.Scan

/-!
Reports: failures of any kind together with the source they refer to, so that they can be shown on their own.
-/

namespace LineCalc

/-- The kinds of failures. Only a failed evaluation has a traceback. -/
inductive Report.Kind where
  | illegalCharacter
  | expectedCharacter
  | invalidSyntax
  | runtime (traceback : Traceback)
deriving DecidableEq, Repr

structure Report where
  kind : Report.Kind
  message : String
  span : Span
  source : Source
deriving DecidableEq, Repr

namespace Report

def Kind.name : Kind → String
  | illegalCharacter => "Illegal Character"
  | expectedCharacter => "Expected Character"
  | invalidSyntax => "Invalid Syntax"
  | runtime _ => "Runtime Error"

def Kind.traceback? : Kind → Option Traceback
  | runtime traceback => some traceback
  | _ => none

def ofScanError (source : Source) (e : ScanError) : Report where
  kind := match e.cause with
    | .illegal _ => .illegalCharacter
    | .bangAlone => .expectedCharacter
  message := e.cause.message
  span := e.span
  source := source

def ofSyntaxError (source : Source) (e : SyntaxError) : Report :=
  ⟨.invalidSyntax, e.cause.message, e.span, source⟩

/-- There is no report without a traceback. -/
def ofEvalError? (source : Source) (e : EvalError) : Option Report :=
  e.traceback?.map fun traceback => ⟨.runtime traceback, e.cause.message, e.span, source⟩

/-- The lines that the failure is about, with carets under its span. -/
def excerpt (r : Report) : String := Excerpt.ofText r.source.text r.span

/-- The lines of a traceback. Lines are counted from one where they are shown. -/
def tracebackText (label : String) (traceback : Traceback) : String :=
  let entries := traceback.map fun entry =>
    "  File " ++ label ++ ", line " ++ toString (entry.line + 1) ++ ", in " ++ entry.frameName ++ "\n"
  "Traceback (most recent call last):\n" ++ String.join entries

/-- The whole report: traceback, kind, message, place and excerpt. -/
def text (r : Report) : String :=
  let label := r.source.label
  (r.kind.traceback?.elim "" (tracebackText label)) ++ r.kind.name ++ ": " ++ r.message ++ " file " ++ label ++
    ", line " ++ toString (r.span.start.line + 1) ++ " col " ++ toString (r.span.start.column + 1) ++ "\n\n" ++
    r.excerpt

end Report
end LineCalc
