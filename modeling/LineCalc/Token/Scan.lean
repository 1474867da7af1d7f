import LineCalc.Numeral
import LineCalc.Token

/-!
Cutting a text into lexemes. From left to right, a space or a tab is skipped, and otherwise the longest token
that the rest of the text starts with is taken (`Token.munch`). The first character that starts no token ends
the scan with an error at that character; a scan that reaches the end adds the end token.
-/

namespace LineCalc

/-- Why no token starts at a character. -/
inductive ScanError.Cause where
  /-- No token starts with this character, a lone point included. -/
  | illegal (c : Char)
  /-- An exclamation mark without its equals sign. -/
  | bangAlone
deriving DecidableEq, Repr

/-- The character at which a scan stopped. -/
structure ScanError where
  cause : ScanError.Cause
  span : Span
deriving DecidableEq, Repr

def ScanError.Cause.message : ScanError.Cause → String
  | illegal c => "'" ++ String.singleton c ++ "'"
  | bangAlone => "'=' (after '!')"

namespace Token

/-- The characters skipped between tokens. -/
def isSkipped (c : Char) : Bool := c == ' ' || c == '\t'

/-- The characters of a word after its first, which is a letter. -/
def isWordChar (c : Char) : Bool := c.isAlphanum || c == '_'

/-- What the text `c :: cs` starts with: the longest token, or none if `c` is skipped, and how many characters
of `cs` belong to it. -/
def munch (c : Char) (cs : List Char) : Except ScanError.Cause (Option Token × Nat) :=
  match c with
  | '+' => .ok (some plus, 0)
  | '-' => .ok (some minus, 0)
  | '*' => .ok (some star, 0)
  | '/' => .ok (some slash, 0)
  | '^' => .ok (some caret, 0)
  | '(' => .ok (some leftParen, 0)
  | ')' => .ok (some rightParen, 0)
  | '=' => .ok (if cs.head? = some '=' then (some equalEqual, 1) else (some equal, 0))
  | '<' => .ok (if cs.head? = some '=' then (some lessEqual, 1) else (some less, 0))
  | '>' => .ok (if cs.head? = some '=' then (some greaterEqual, 1) else (some greater, 0))
  | '!' => if cs.head? = some '=' then .ok (some bangEqual, 1) else .error .bangAlone
  | c =>
    if isSkipped c then .ok (none, 0)
    else if c.isDigit || c == '.' then
      let numeral := Numeral.ofChars (c :: cs)
      match numeral.num? with
      | some n => .ok (some (number n), numeral.chars.length - 1)
      | none => .error (.illegal c)
    else if c.isAlpha then
      let word := c :: cs.takeWhile isWordChar
      .ok (some (ofWord (String.ofList word)), word.length - 1)
    else .error (.illegal c)

/-- Scans `cs`, which starts at `p`. -/
def scanFrom (p : Position) : List Char → Except ScanError (List Lexeme)
  | [] => .ok [⟨eof, .emptyAt p⟩]
  | c :: cs =>
    match munch c cs with
    | .error cause => .error ⟨cause, p, p.advance c⟩
    | .ok (token?, n) =>
      let stop := (p.advance c).advanceAll (cs.take n)
      match scanFrom stop (cs.drop n) with
      | .error e => .error e
      | .ok lexemes => .ok (match token? with
        | some token => ⟨token, p, stop⟩ :: lexemes
        | none => lexemes)
termination_by cs => cs.length
decreasing_by simp only [List.length_drop, List.length_cons]; omega

/-- Scans a whole text that starts on the line and column of `start`. Byte offsets count from zero. -/
def scan (start : Position) (text : String) : Except ScanError (List Lexeme) :=
  scanFrom { start with offset := 0 } text.toList

end Token
end LineCalc
