import FrontEnd.Number.Digits

/-!
Binary floating-point numbers of 64 bits, kept as their bits. Reading a decimal text rounds its
exact value to the nearest number, a tie to the even one; what is too large becomes an infinity.
-/

set_option autoImplicit false

namespace FrontEnd.Number

structure Binary64 where
  bits : UInt64
deriving DecidableEq, Repr

namespace Binary64

/-- The value of the sign bit. -/
def signUnit : Nat := 0x8000000000000000

/-- The value of the lowest bit of the exponent: two to the power of 52. -/
def exponentUnit : Nat := 0x10000000000000

def infinity : Binary64 := ⟨0x7ff0000000000000⟩

def nan : Binary64 := ⟨0x7ff8000000000000⟩

/-- The bits without the sign. -/
def magnitude (x : Binary64) : Nat := x.bits.toNat % signUnit

def isNegative (x : Binary64) : Bool := signUnit ≤ x.bits.toNat

def isNaN (x : Binary64) : Bool := infinity.magnitude < x.magnitude

def isInfinite (x : Binary64) : Bool := x.magnitude = infinity.magnitude

def isZero (x : Binary64) : Bool := x.magnitude = 0

/-- The number with its sign bit set if `negative` holds. -/
def signed (negative : Bool) (x : Binary64) : Binary64 :=
  ⟨UInt64.ofNat (x.magnitude + if negative then signUnit else 0)⟩

/-- Comparison of values: the two zeros are equal, and a NaN equals nothing. -/
def equal (x y : Binary64) : Bool :=
  !x.isNaN && !y.isNaN && (x.bits = y.bits || (x.isZero && y.isZero))

/-- The significand of a finite number and the power of two that scales it. -/
def parts (x : Binary64) : Nat × Int :=
  let exponent := x.magnitude / exponentUnit
  let fraction := x.magnitude % exponentUnit
  if exponent = 0 then (fraction, -1074) else (exponentUnit + fraction, exponent - 1075)

/-- The whole number nearest to `num / den`, a tie to the even one. -/
def roundDiv (num den : Nat) : Nat :=
  let whole := num / den
  let twice := 2 * (num % den)
  if twice < den then whole
  else if den < twice then whole + 1
  else whole + whole % 2

/-- The positive part of an exponent as a power of `base`. -/
def power (base : Nat) (exponent : Int) : Nat := Nat.pow base exponent.toNat

/-- The number nearest to the positive quotient `num / den`: the power of two is the least that
leaves at most 53 bits of the quotient, and a significand that rounds up to 54 bits carries. -/
def ofQuotient (num den : Nat) : Binary64 :=
  let low : Int := num.log2 - den.log2 - 53
  let exact : Int :=
    if num * power 2 (-low) < 2 * exponentUnit * den * power 2 low then low else low + 1
  let exponent := max exact (-1074)
  let significand := roundDiv (num * power 2 (-exponent)) (den * power 2 exponent)
  let magnitude := (exponent + 1074).toNat * exponentUnit + significand
  ⟨UInt64.ofNat (min magnitude infinity.magnitude)⟩

/-- The number nearest to `digits · 10 ^ exponent`. An exponent beyond the given bounds decides the
answer without the power of ten. -/
def ofDecimal (digits : List Char) (exponent : Int) : Binary64 :=
  let number := ofDigits digits
  if number = 0 then ⟨0⟩
  else if 309 < exponent then infinity
  else if digits.length + exponent < -330 then ⟨0⟩
  else ofQuotient (number * power 10 exponent) (power 10 (-exponent))

/-- Reads what follows the mantissa: nothing, or a mark, at most one sign, and digits. -/
def exponent? : List Char → Option Int
  | [] => some 0
  | mark :: cs =>
    if mark = 'e' || mark = 'E' then
      match cs with
      | '+' :: cs => (natural? cs).map Int.ofNat
      | '-' :: cs => (natural? cs).map (- Int.ofNat ·)
      | cs => (natural? cs).map Int.ofNat
    else none

/-- Reads digits with at most one point among them and at least one digit, then an exponent. -/
def decimal? (cs : List Char) : Option Binary64 :=
  let whole := cs.takeWhile isDigit
  let rest := cs.dropWhile isDigit
  let (fraction, rest) :=
    match rest with
    | '.' :: rest => (rest.takeWhile isDigit, rest.dropWhile isDigit)
    | rest => ([], rest)
  if whole.isEmpty && fraction.isEmpty then none
  else (exponent? rest).map fun exponent =>
    ofDecimal (whole ++ fraction) (exponent - fraction.length)

/-- Reads a decimal or the name of an infinity or NaN, in any letter case. -/
def unsigned? (cs : List Char) : Option Binary64 :=
  let name := String.ofList (cs.map Char.toLower)
  if name = "inf" || name = "infinity" then some infinity
  else if name = "nan" then some nan
  else decimal? cs

/-- Reads a number behind at most one sign. -/
def ofText? (text : String) : Option Binary64 :=
  match text.toList with
  | '+' :: cs => unsigned? cs
  | '-' :: cs => (unsigned? cs).map (signed true)
  | cs => unsigned? cs

end Binary64

end FrontEnd.Number
