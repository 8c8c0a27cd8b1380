import FrontEnd.Position
import FrontEnd.Token.Kind

/-!
Tokens: a kind, the text that the kind leaves open, and the position where the token starts.
-/

set_option autoImplicit false

namespace FrontEnd

/-- The value of an operator, a keyword or the end of input is empty. -/
structure Token where
  kind : TokenKind
  value : String
  position : Position
deriving DecidableEq, Repr

namespace Token

/-- A token is written as its position and kind, and its value in parentheses if it has one. -/
def text (t : Token) : String :=
  let head := t.position.text ++ " " ++ t.kind.name
  if t.value = "" then head else head ++ " (" ++ t.value ++ ")"

def isOneOf (t : Token) (kinds : List TokenKind) : Bool := t.kind ∈ kinds

end Token

end FrontEnd
