import LineCalc.Num
import LineCalc.Position

/-!
Tokens, the words of the language, and their spellings.
-/

namespace LineCalc

/-- The reserved words. -/
inductive Keyword where
  | var
  | and
  | or
  | not
deriving DecidableEq, BEq, Repr

namespace Keyword

def spelling : Keyword → String
  | var => "VAR"
  | and => "AND"
  | or => "OR"
  | not => "NOT"

/-- The keyword that `word` spells. Case matters. -/
def ofWord? : String → Option Keyword
  | "VAR" => some var
  | "AND" => some and
  | "OR" => some or
  | "NOT" => some not
  | _ => none

end Keyword

/-- A token. The end of the text is a token too. -/
inductive Token where
  | number (n : Num)
  | identifier (name : String)
  | keyword (k : Keyword)
  | plus
  | minus
  | star
  | slash
  | caret
  | equal
  | equalEqual
  | bangEqual
  | less
  | greater
  | lessEqual
  | greaterEqual
  | leftParen
  | rightParen
  | eof
deriving DecidableEq, BEq

/-- A token at its place in the text. -/
abbrev Lexeme := Located Token

namespace Token

/-- The token that a whole word is: a keyword or an identifier. -/
def ofWord (word : String) : Token :=
  match Keyword.ofWord? word with
  | some k => keyword k
  | none => identifier word

def spelling : Token → String
  | number n => n.literalText
  | identifier name => name
  | keyword k => k.spelling
  | plus => "+"
  | minus => "-"
  | star => "*"
  | slash => "/"
  | caret => "^"
  | equal => "="
  | equalEqual => "=="
  | bangEqual => "!="
  | less => "<"
  | greater => ">"
  | lessEqual => "<="
  | greaterEqual => ">="
  | leftParen => "("
  | rightParen => ")"
  | eof => "<EOF>"

end Token
end LineCalc
