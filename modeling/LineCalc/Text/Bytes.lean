/-!
Byte offsets into texts, which are lists of characters here. An offset is a place in a text when it falls between
two characters of its UTF-8 encoding; offsets inside a character or beyond the end are no places.
-/

namespace LineCalc.Text

/-- How many bytes of UTF-8 a text takes. -/
def byteLength : List Char → Nat
  | [] => 0
  | c :: cs => c.utf8Size + byteLength cs

/-- The characters before a byte offset, if it is a place in the text. -/
def takeBytes? : Nat → List Char → Option (List Char)
  | 0, _ => some []
  | _ + 1, [] => none
  | n + 1, c :: cs =>
    if c.utf8Size ≤ n + 1 then (takeBytes? (n + 1 - c.utf8Size) cs).map (c :: ·) else none

/-- How many characters lie before a byte offset; none if it is no place in the text. -/
def charIndex (cs : List Char) (offset : Nat) : Nat :=
  (takeBytes? offset cs).elim 0 List.length

@[simp] theorem byteLength_nil : byteLength [] = 0 := rfl

@[simp] theorem byteLength_cons (c : Char) (cs : List Char) :
    byteLength (c :: cs) = c.utf8Size + byteLength cs := rfl

@[simp] theorem byteLength_append (cs ds : List Char) :
    byteLength (cs ++ ds) = byteLength cs + byteLength ds := by
  induction cs with
  | nil => simp
  | cons c cs ih => rw [List.cons_append, byteLength_cons, ih, byteLength_cons, Nat.add_assoc]

/-- A text gives back its parts at the offset between them. -/
theorem takeBytes?_append (cs ds : List Char) : takeBytes? (byteLength cs) (cs ++ ds) = some cs := by
  induction cs with
  | nil => cases ds <;> rfl
  | cons c cs ih =>
    have hpos := c.utf8Size_pos
    obtain ⟨n, hn⟩ : ∃ n, c.utf8Size + byteLength cs = n + 1 := ⟨c.utf8Size + byteLength cs - 1, by omega⟩
    rw [byteLength_cons, hn, List.cons_append, takeBytes?, if_pos (by omega), ← hn, Nat.add_sub_cancel_left, ih]
    rfl

end LineCalc.Text
