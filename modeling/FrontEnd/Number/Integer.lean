import FrontEnd.Number.Digits

/-!
Integers of 64 bits in two's complement, and the decimal texts that write them.
-/

set_option autoImplicit false

namespace FrontEnd.Number

/-- Reads digits behind at most one sign. -/
def integer? : List Char → Option Int
  | '+' :: cs => (natural? cs).map Int.ofNat
  | '-' :: cs => (natural? cs).map (- Int.ofNat ·)
  | cs => (natural? cs).map Int.ofNat

/-- Reads an integer and refuses one that 64 bits cannot hold. -/
def int64? (text : String) : Option Int64 :=
  (integer? text.toList).bind fun n =>
    if Int64.minValue.toInt ≤ n ∧ n ≤ Int64.maxValue.toInt then some (Int64.ofInt n) else none

/-- An integer is written in decimal, with a minus sign if it is negative. -/
def int64Text (n : Int64) : String := toString n.toInt

end FrontEnd.Number
