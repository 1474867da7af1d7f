import LineCalc.Token

/-!
Classes of tokens, in which errors say what was expected.
-/

namespace LineCalc

/-- What may come next, as error messages name it. -/
inductive TokenClass where
  | int
  | float
  | identifier
  | exactly (t : Token)
deriving DecidableEq

namespace TokenClass

/-- Whether `t` is of the class. -/
def holds : TokenClass → Token → Bool
  | int, .number (.int _) => true
  | float, .number (.float _) => true
  | identifier, .identifier _ => true
  | exactly u, t => decide (t = u)
  | _, _ => false

def text : TokenClass → String
  | int => "int"
  | float => "float"
  | identifier => "identifier"
  | exactly t => "'" ++ t.spelling ++ "'"

/-- The classes with commas between them, and "or" before the last. -/
def enumerate : List TokenClass → String
  | [] => ""
  | [c] => c.text
  | [c, d] => c.text ++ " or " ++ d.text
  | c :: cs => c.text ++ ", " ++ enumerate cs

end TokenClass
end LineCalc
