import FrontEnd.Text.Printable

/-!
Quoted text in messages: the text between double quotes, with what would end the quotation or not
show written as an escape.
-/

set_option autoImplicit false

namespace FrontEnd.Text

/-- The code point of a character in lower-case hexadecimal, without leading zeros. -/
def codePoint (c : Char) : String := String.ofList (Nat.toDigits 16 c.toNat)

/-- How one character is written between the quotes. -/
def escape (c : Char) : String :=
  if c = '"' then "\\\""
  else if c = '\\' then "\\\\"
  else if c = '\n' then "\\n"
  else if c = '\r' then "\\r"
  else if c = '\t' then "\\t"
  else if c = '\x00' then "\\0"
  else if isPrintable c then c.toString
  else "\\u\x7b" ++ codePoint c ++ "\x7d"

def quoted (s : String) : String :=
  "\"" ++ String.join (s.toList.map escape) ++ "\""

end FrontEnd.Text
