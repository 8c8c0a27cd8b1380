/-!
Decimal digits: which characters they are, and the number that a run of them writes.
-/

set_option autoImplicit false

namespace FrontEnd.Number

def isDigit (c : Char) : Bool := '0' ≤ c && c ≤ '9'

/-- The number that a run of digits writes, the most significant one first. -/
def ofDigits (cs : List Char) : Nat :=
  cs.foldl (fun n c => 10 * n + (c.toNat - '0'.toNat)) 0

/-- Reads a text that holds digits, at least one, and nothing else. -/
def natural? (cs : List Char) : Option Nat :=
  if !cs.isEmpty && cs.all isDigit then some (ofDigits cs) else none

end FrontEnd.Number
