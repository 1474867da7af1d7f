import LineCalc.Position

/-!
A text to be evaluated, the label that reports name it by, and the number of its first line. A line of a
file is a source of its own whose first line is its place in the file, so that reports give the line
numbers of the file.
-/

namespace LineCalc

/-- A text with its label. Its first line has the number `firstLine`, counted from zero. -/
structure Source where
  label : String
  text : String
  firstLine : UInt64 := 0
deriving DecidableEq, Repr

/-- Where the text starts. -/
def Source.start (s : Source) : Position := ⟨0, s.firstLine, 0⟩

end LineCalc
