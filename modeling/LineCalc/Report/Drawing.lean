import LineCalc.Report

/-!
Drawn reports: the text of one line in a frame, its span underlined, and an arm from the underline to the
message. The frame shows no other lines, and columns count the characters of the text. A traceback follows as a
note. With colours, each mark is painted on its own.
-/

namespace LineCalc.Report

/-- The colours of a drawing, by what they paint. -/
inductive Ink where
  | failure
  | frame
  | gutter
  | source
  | note
deriving DecidableEq, Repr

/-- The number that selects the colour on a terminal. -/
def Ink.code : Ink → String
  | failure => "31"
  | frame => "38;5;246"
  | gutter => "38;5;240"
  | source => "38;5;249"
  | note => "38;5;115"

/-- A text in a colour, if colours are wanted. -/
def Ink.paint (ink : Ink) (color : Bool) (s : String) : String :=
  if color then "\x1b[" ++ ink.code ++ "m" ++ s ++ "\x1b[0m" else s

/-- The same character painted `n` times. -/
def Ink.paintRun (ink : Ink) (color : Bool) (c : Char) (n : Nat) : String :=
  String.join (List.replicate n (ink.paint color (String.singleton c)))

/-- A line with the part of it to be underlined, from `first` up to but excluding `last`. -/
structure Underlined where
  line : List Char
  first : Nat
  last : Nat

namespace Underlined

/-- How many columns the character at `i` takes. A tab fills up to the next multiple of four characters. -/
def width (u : Underlined) (i : Nat) : Nat :=
  if u.line[i]? = some '\t' then 4 - i % 4 else 1

/-- Whether the character at `i` is underlined. -/
def covers (u : Underlined) (i : Nat) : Bool := decide (u.first ≤ i ∧ i < u.last)

/-- Where the arm leaves the underline. -/
def anchor (u : Underlined) : Nat := (u.first + u.last) / 2

/-- The line itself, in which every blank is a space. -/
def textRow (u : Underlined) (color : Bool) : String :=
  String.join (u.line.zipIdx.map fun (c, i) =>
    (if u.covers i then Ink.failure else Ink.source).paintRun color (if Text.isBlank c then ' ' else c) (u.width i))

/-- A mark at one character: a corner and the rest of the character's columns. -/
def mark (u : Underlined) (color : Bool) (i : Nat) (corner fill : Char) : String :=
  Ink.failure.paintRun color corner 1 ++ Ink.failure.paintRun color fill (u.width i - 1)

def blank (u : Underlined) (i : Nat) : String := String.ofList (List.replicate (u.width i) ' ')

/-- The underline, with the start of the arm. It goes two characters beyond the last one underlined. -/
def underlineRow (u : Underlined) (color : Bool) : String :=
  String.join ((List.range (u.last + 2)).map fun i =>
    if i = u.anchor then
      if u.covers i then u.mark color i '┬' '─' else u.mark color i '│' ' '
    else if u.covers i then Ink.failure.paintRun color '─' (u.width i)
    else u.blank i)

/-- The arm to the message. -/
def armRow (u : Underlined) (color : Bool) : String :=
  String.join ((List.range (u.last + 2)).map fun i =>
    if i < u.anchor then u.blank i
    else if i = u.anchor then u.mark color i '╰' '─'
    else Ink.failure.paintRun color '─' (u.width i))

end Underlined

/-- The part of the text to be underlined. -/
def underlined (r : Report) : Underlined :=
  let cs := r.source.text.toList
  ⟨Text.trimEnd cs, Text.charIndex cs r.span.start.offset, Text.charIndex cs r.span.stop.offset⟩

/-- The frames of a traceback, one after another. -/
def tracebackNote (traceback : Traceback) : String :=
  "traceback: " ++ String.intercalate " -> "
    (traceback.map fun entry => "line " ++ toString (entry.line + 1) ++ ", in " ++ entry.frameName)

/-- The lines of a note. The first stands behind the heading, the others below it. -/
def noteLines (note : String) (color : Bool) : List String :=
  match Text.lines note.toList with
  | [] => []
  | first :: more =>
    (Ink.note.paint color "Note" ++ ": " ++ String.ofList first) :: more.map fun line => "      " ++ String.ofList line

/-- The lines of the drawn report. -/
def drawingLines (r : Report) (color : Bool) : List String :=
  let u := r.underlined
  let frame (s : String) := Ink.frame.paint color s
  let gutter := " " ++ Ink.gutter.paint color "  │" ++ " "
  let place := " " ++ r.source.label ++ ":1:" ++ toString (u.first + 1) ++ " "
  [Ink.failure.paint color "Error:" ++ " " ++ r.kind.name,
    "   " ++ frame "╭" ++ frame "─" ++ frame "[" ++ place ++ frame "]",
    "   " ++ frame "│",
    " " ++ frame "1 │" ++ " " ++ u.textRow color,
    gutter ++ u.underlineRow color,
    gutter ++ u.armRow color ++ " " ++ r.message] ++
  (match r.kind.traceback? with
    | some traceback => gutter :: (noteLines (tracebackNote traceback) color).map (gutter ++ ·)
    | none => []) ++
  [frame "───╯"]

/-- The drawn report. -/
def drawing (r : Report) (color : Bool) : String :=
  String.join ((r.drawingLines color).map (· ++ "\n"))

end LineCalc.Report
