import LineCalc.Position
import LineCalc.Text.Blank
import LineCalc.Text.Bytes
import LineCalc.Text.Lines

/-!
Excerpts: the lines of a text that a span touches, each without the blanks it starts with, and under each line
carets under the characters of the span. An empty span still gets one caret.
-/

namespace LineCalc.Excerpt

/-- The text from the start of the line in which a byte offset lies. An offset that is no place in the text
counts as its start. -/
def fromLineOf (cs : List Char) (offset : Nat) : List Char :=
  let before := (Text.takeBytes? offset cs).getD []
  cs.drop (before.length - (before.reverse.takeWhile (· ≠ '\n')).length)

/-- How many lines a span touches, by the numbers of its first and its last line. One that ends right behind a
newline does not touch the next line. -/
def lineCount (span : Span) : Nat :=
  let lines := UInt64.ofNat (span.stop.line.toNat - span.start.line.toNat) + 1
  if 1 < lines ∧ span.stop.column = 0 then lines.toNat - 1 else lines.toNat

/-- The `i`th touched line, and the line of carets under it. -/
def row (span : Span) (i : Nat) (line : List Char) : List Char :=
  let line := Text.dropEndWhile (· == '\r') line
  let shown := Text.trimStart line
  let indent := line.length - shown.length
  let first := if i = 0 then span.start.column else 0
  let last :=
    if i + 1 < lineCount span ∨ span.start.line.toNat + i < span.stop.line.toNat then line.length
    else span.stop.column
  let start := first - indent
  let stop := max (last - indent) (start + 1)
  shown ++ '\n' :: List.replicate start ' ' ++ List.replicate (stop - start) '^'

/-- The excerpt of a text for a span. -/
def ofText (text : String) (span : Span) : String :=
  let touched := (Text.pieces (fromLineOf text.toList span.start.offset)).take (lineCount span)
  String.ofList (['\n'].intercalate (touched.zipIdx.map fun (line, i) => row span i line))

end LineCalc.Excerpt
