import LineCalc.Num

/-!
Written numbers: a run of digits with at most one point in it. A run without a point is an integer, or a double
where it does not fit one; a run with a point is a double, provided that it has a digit. The text read so far
and the number meant are kept apart: `Numeral.ofChars` takes the longest run, `Numeral.num?` says what it means.
-/

namespace LineCalc

/-- The digits before the point, and those after it if there is a point. -/
structure Numeral where
  whole : List Char
  fraction : Option (List Char)
deriving DecidableEq, Repr

namespace Numeral

/-- The longest numeral that `cs` starts with, possibly of no characters. -/
def ofChars (cs : List Char) : Numeral where
  whole := cs.takeWhile Char.isDigit
  fraction := match cs.dropWhile Char.isDigit with
    | '.' :: cs => some (cs.takeWhile Char.isDigit)
    | _ => none

/-- The characters of the numeral. -/
def chars : Numeral → List Char
  | ⟨whole, none⟩ => whole
  | ⟨whole, some fraction⟩ => whole ++ '.' :: fraction

/-- The number that the numeral means, correctly rounded. A point alone means none. -/
def num? : Numeral → Option Num
  | ⟨whole, none⟩ =>
    let n := Nat.ofDigitChars 10 whole 0
    some (match fitInt? n with
      | some i => .int i
      | none => .float (.ofScientific n false 0))
  | ⟨whole, some fraction⟩ =>
    if whole.isEmpty && fraction.isEmpty then none
    else some (.float (.ofScientific (Nat.ofDigitChars 10 (whole ++ fraction) 0) true fraction.length))

end Numeral
end LineCalc
