/-!
Lines. A text falls into pieces between newlines, one more than there are newlines. As the lines of a file, the
pieces lose one carriage return before the newline that ends them, and an empty piece behind the last newline
is no line. In lines that are typed in, a backspace takes back the character before it.
-/

namespace LineCalc.Text

/-- Puts a character in front of the first piece. -/
def consHead (c : Char) : List (List Char) → List (List Char)
  | [] => [[c]]
  | p :: ps => (c :: p) :: ps

/-- The pieces between newlines. -/
def pieces (cs : List Char) : List (List Char) :=
  cs.foldr (fun c ps => if c = '\n' then [] :: ps else consHead c ps) [[]]

@[simp] theorem pieces_nil : pieces [] = [[]] := rfl

@[simp] theorem pieces_newline (cs : List Char) : pieces ('\n' :: cs) = [] :: pieces cs := rfl

theorem pieces_cons {c : Char} (h : c ≠ '\n') (cs : List Char) :
    pieces (c :: cs) = consHead c (pieces cs) := by
  simp [pieces, h]

/-- A line that a newline ended, without the carriage return before the newline. -/
def dropReturn (line : List Char) : List Char :=
  if line.getLast? = some '\r' then line.dropLast else line

/-- The lines of a file. -/
def lines (cs : List Char) : List (List Char) :=
  let ps := pieces cs
  ps.dropLast.map dropReturn ++ match ps.getLast? with
    | some (c :: last) => [c :: last]
    | _ => []

/-- What is kept of the characters `cs`, last one first, when `kept` was kept before them. -/
def keep (kept : List Char) (cs : List Char) : List Char :=
  cs.foldl (fun kept c => if c = '\x08' then kept.tail else c :: kept) kept

/-- A typed line without its backspaces and the characters that they take back. -/
def applyBackspaces (line : List Char) : List Char := (keep [] line).reverse

/-- The lines of a text that is typed in. -/
def typedLines (cs : List Char) : List (List Char) := (lines cs).map applyBackspaces

end LineCalc.Text
