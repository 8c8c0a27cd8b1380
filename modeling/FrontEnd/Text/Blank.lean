/-!
Blank characters. The language itself knows six of them; trimming a line for display removes
every character of the Unicode property White_Space.
-/

set_option autoImplicit false

namespace FrontEnd.Text

/-- A blank of the language: space, tab, newline, vertical tab, form feed or carriage return. -/
def isBlank (c : Char) : Bool :=
  c = ' ' || c = '\t' || c = '\n' || c = '\x0b' || c = '\x0c' || c = '\r'

/-- A character of the Unicode property White_Space. -/
def isWhiteSpace (c : Char) : Bool :=
  isBlank c || c = '\x85' || c = '\xa0' || c = '\u1680' || ('\u2000' ≤ c && c ≤ '\u200a')
    || c = '\u2028' || c = '\u2029' || c = '\u202f' || c = '\u205f' || c = '\u3000'

theorem isWhiteSpace_of_isBlank (c : Char) (h : isBlank c = true) : isWhiteSpace c = true := by
  simp [isWhiteSpace, h]

/-- A text without the white space at its end. -/
def trimEnd (cs : List Char) : List Char := (cs.reverse.dropWhile isWhiteSpace).reverse

end FrontEnd.Text
