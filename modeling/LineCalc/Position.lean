/-!
Places in a text. A position says how much of the text lies before it, in three measures: bytes of UTF-8,
finished lines, and characters since the last line end. Reading a character advances a position, so the
place reached after any part of a text is the fold of `Position.advance` over that part
(`Position.advanceAll`), and reading two parts one after the other reaches the place that reading them
together does (`Position.advanceAll_append`). A span is the part of a text between two positions.

A text may be the continuation of another one and start on any line, so lines are counted in a machine word and
wrap behind the greatest one. Offsets and columns count what has been read of a text that is held in memory, and
are natural numbers.
-/

namespace LineCalc

/-- A place in a text. The byte offset, the line and the column all count from zero; the column counts
characters. -/
structure Position where
  offset : Nat := 0
  line : UInt64 := 0
  column : Nat := 0
deriving DecidableEq, Ord, Repr, Inhabited

namespace Position

/-- Places are compared by offset, then by line, then by column. -/
instance : LE Position := leOfOrd

instance : LT Position := ltOfOrd

instance : DecidableRel ((· ≤ ·) : Position → Position → Prop) :=
  inferInstanceAs (DecidableRel (@LE.le Position leOfOrd))

/-- The place after reading `c`. Only a newline ends a line. -/
def advance (p : Position) (c : Char) : Position :=
  if c = '\n' then ⟨p.offset + c.utf8Size, p.line + 1, 0⟩
  else ⟨p.offset + c.utf8Size, p.line, p.column + 1⟩

/-- The place after reading all of `cs`. -/
def advanceAll (p : Position) (cs : List Char) : Position :=
  cs.foldl advance p

/-- Every place passed while reading `cs`, from `p` itself to the place after the last character. -/
def trail (p : Position) : List Char → List Position
  | [] => [p]
  | c :: cs => p :: trail (p.advance c) cs

@[simp] theorem advanceAll_nil (p : Position) : p.advanceAll [] = p := rfl

@[simp] theorem advanceAll_cons (p : Position) (c : Char) (cs : List Char) :
    p.advanceAll (c :: cs) = (p.advance c).advanceAll cs := rfl

theorem advanceAll_append (p : Position) (cs ds : List Char) :
    p.advanceAll (cs ++ ds) = (p.advanceAll cs).advanceAll ds :=
  List.foldl_append

@[simp] theorem offset_advance (p : Position) (c : Char) :
    (p.advance c).offset = p.offset + c.utf8Size := by
  unfold advance
  split <;> rfl

end Position

/-- The part of a text from `start` up to but excluding `stop`. -/
structure Span where
  start : Position := {}
  stop : Position := {}
deriving DecidableEq, Repr, Inhabited

namespace Span

/-- The empty span at `p`. -/
def emptyAt (p : Position) : Span := ⟨p, p⟩

/-- From the start of `a` to the end of `b`. -/
def enclose (a b : Span) : Span := ⟨a.start, b.stop⟩

/-- As `enclose`, for spans of which the second ends no earlier than the first starts. -/
def enclose? (a b : Span) : Option Span := if a.start ≤ b.stop then some (a.enclose b) else none

/-- The byte offsets of the two ends. -/
def range (s : Span) : Nat × Nat := (s.start.offset, s.stop.offset)

/-- Whether the span holds no byte. -/
def isEmpty (s : Span) : Bool := s.start.offset == s.stop.offset

end Span

/-- A thing together with the part of the text that it was read from. -/
structure Located (α : Type) where
  value : α
  span : Span
deriving DecidableEq, BEq, Repr

end LineCalc
