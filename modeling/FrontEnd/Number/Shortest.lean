import FrontEnd.Number.Binary64

/-!
The shortest decimal that reads back as a given binary number, and its layout. Of the decimals
with the fewest digits that round to the number, the one nearest to it is taken.
-/

set_option autoImplicit false

namespace FrontEnd.Number

/-- The value `digits · 10 ^ exponent`. -/
structure Decimal where
  digits : Nat
  exponent : Int
deriving DecidableEq, Repr

namespace Binary64

/-- The reals that round to a number, in quarters of its unit: the ends belong to them iff the
significand is even. -/
structure Basin where
  low : Nat
  value : Nat
  high : Nat
  closed : Bool
  unit : Int

/-- The gap below a power of two is half of the gap above it. -/
def basin (x : Binary64) : Basin :=
  let (significand, exponent) := x.parts
  let below := if significand = exponentUnit && -1074 < exponent then 1 else 2
  { low := 4 * significand - below, value := 4 * significand, high := 4 * significand + 2,
    closed := significand % 2 = 0, unit := exponent - 2 }

namespace Basin

/-- With `step`, a number of quarters in steps of the decimal grid: it is `scaled / step` of them. -/
def scaled (b : Basin) (exponent : Int) (quarters : Nat) : Nat :=
  quarters * power 2 b.unit * power 10 (-exponent)

/-- One step of the decimal grid with the given exponent, on the scale of `scaled`. -/
def step (b : Basin) (exponent : Int) : Nat := power 2 (-b.unit) * power 10 exponent

/-- Whether the decimal rounds to the number. -/
def contains (b : Basin) (d : Decimal) : Bool :=
  let point := d.digits * b.step d.exponent
  let low := b.scaled d.exponent b.low
  let high := b.scaled d.exponent b.high
  if b.closed then low ≤ point && point ≤ high else low < point && point < high

/-- The number of digits before the decimal point; it is not positive below one tenth. -/
def pointPlace (b : Basin) : Int :=
  let fixed := b.scaled (-400) b.value / b.step (-400)
  ((Nat.toDigits 10 fixed).length : Int) - 400

/-- The nearest decimal of the basin with `count` digits; of two equally near ones the larger. -/
def nearest? (b : Basin) (count : Nat) : Option Decimal :=
  let exponent := b.pointPlace - count
  let step := b.step exponent
  let value := b.scaled exponent b.value
  let down : Decimal := ⟨value / step, exponent⟩
  let up : Decimal := ⟨value / step + 1, exponent⟩
  let nearer := if 2 * (value % step) < step then [down, up] else [up, down]
  nearer.find? b.contains

end Basin

/-- A decimal with the fewest digits that reads back as a finite positive number; seventeen digits
always suffice. -/
def shortest (x : Binary64) : Decimal :=
  ((List.range' 1 17).findSome? x.basin.nearest?).getD ⟨0, 0⟩

/-- How the digits of a number are laid out. -/
structure Layout where
  /-- The least exponent of the leading digit that is written without an exponent. -/
  plainFrom : Int
  /-- The least exponent from which one is written again. -/
  plainBelow : Int
  /-- The decimals that a whole number shows. -/
  wholeTail : String
  mark : String
  infinite : String
  undefined : String

/-- The characters of a decimal without the zeros at its end. -/
def significantDigits (d : Decimal) : List Char :=
  ((Nat.toDigits 10 d.digits).reverse.dropWhile (· = '0')).reverse

def zeros (count : Nat) : List Char := List.replicate count '0'

/-- Writes the digits `cs` of a number whose leading digit has the given exponent. -/
def Layout.digits (layout : Layout) (cs : List Char) (exponent : Int) : String :=
  if layout.plainFrom ≤ exponent && exponent < layout.plainBelow then
    let place := (exponent + 1).toNat
    if exponent < 0 then
      "0." ++ String.ofList (zeros (-exponent - 1).toNat ++ cs)
    else if cs.length ≤ place then
      String.ofList (cs ++ zeros (place - cs.length)) ++ layout.wholeTail
    else String.ofList (cs.take place) ++ "." ++ String.ofList (cs.drop place)
  else
    let tail := if cs.length ≤ 1 then "" else "." ++ String.ofList (cs.drop 1)
    String.ofList (cs.take 1) ++ tail ++ layout.mark ++ toString exponent

/-- The text of a number: the shortest digits that read back, in the given layout. -/
def text (layout : Layout) (x : Binary64) : String :=
  if x.isNaN then layout.undefined
  else
    let sign := if x.isNegative then "-" else ""
    if x.isInfinite then sign ++ layout.infinite
    else if x.isZero then sign ++ "0" ++ layout.wholeTail
    else
      let decimal := x.shortest
      let digitCount : Int := (Nat.toDigits 10 decimal.digits).length
      sign ++ layout.digits (significantDigits decimal) (decimal.exponent + digitCount - 1)

end Binary64

end FrontEnd.Number
