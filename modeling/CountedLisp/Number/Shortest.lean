import CountedLisp.Number.Rounding

/-!
# Shortest decimal of a number

`Number.shortest` gives, for a positive finite double, the decimal with the fewest digits that
rounds back to it. Of several such decimals it is the nearest to the double, and of two equally
near ones the even one. All arithmetic is exact.
-/
namespace CountedLisp.Number

/-- A positive decimal `digits * 10 ^ exponent`. -/
structure Decimal where
  digits : Nat
  exponent : Int
  deriving Repr, DecidableEq

/-- A positive finite double `significand * 2 ^ exponent`, with whether its lower neighbour is only
half as far away as the upper one. -/
structure Binary where
  significand : Nat
  exponent : Int
  narrowBelow : Bool
  deriving Repr, DecidableEq

def Binary.ofBits (bits : Nat) : Binary :=
  let field : Nat := bits / Nat.pow 2 52 % Nat.pow 2 11
  let fraction := bits % Nat.pow 2 52
  if field = 0 then ⟨fraction, minExponent, false⟩
  else ⟨fraction + Nat.pow 2 52, (field : Int) - 1075, fraction = 0 && 1 < field⟩

/-- The decimals that round to a double lie between `low / den` and `high / den`, where `value / den`
is the double itself. The ends belong to the interval if it is closed. -/
structure Interval where
  low : Nat
  value : Nat
  high : Nat
  den : Nat
  closed : Bool

def Binary.interval (b : Binary) : Interval :=
  let value := 4 * b.significand
  let low := if b.narrowBelow then value - 1 else value - 2
  let scale : Int := b.exponent - 2
  let up := if 0 ≤ scale then Nat.pow 2 scale.toNat else 1
  let den := if 0 ≤ scale then 1 else Nat.pow 2 (-scale).toNat
  ⟨low * up, value * up, (value + 2) * up, den, b.significand % 2 = 0⟩

def leadingExponent (num den : Nat) : Int :=
  if den ≤ num then (Nat.toDigits 10 (num / den)).length - 1
  else
    let zeros := (Nat.toDigits 10 (den / num)).length
    if den ≤ num * Nat.pow 10 (zeros - 1) then 1 - (zeros : Int) else -(zeros : Int)

/-- The interval measured in units of `10 ^ exponent`: a multiple `c` of that unit stands at
`c * den`. -/
def Interval.rescale (i : Interval) (exponent : Int) : Interval :=
  if 0 ≤ exponent then { i with den := i.den * Nat.pow 10 exponent.toNat }
  else
    let up := Nat.pow 10 (-exponent).toNat
    { i with low := i.low * up, value := i.value * up, high := i.high * up }

def Interval.holds (i : Interval) (c : Nat) : Bool :=
  if i.closed then i.low ≤ c * i.den && c * i.den ≤ i.high
  else i.low < c * i.den && c * i.den < i.high

def Interval.nearest? (i : Interval) : Option Nat :=
  let below := i.value / i.den
  let above := below + 1
  match i.holds below, i.holds above with
  | true, true =>
    let down := i.value - below * i.den
    let up := above * i.den - i.value
    if down < up then some below
    else if up < down then some above
    else if below % 2 = 0 then some below else some above
  | true, false => some below
  | false, true => some above
  | false, false => none

/-- Tries decimals whose last digit stands at `exponent`, then one place further down, and so on. -/
def searchDecimal (i : Interval) : (tries : Nat) → (exponent : Int) → Decimal
  | 0, exponent => ⟨(i.rescale exponent).value / (i.rescale exponent).den, exponent⟩
  | tries + 1, exponent =>
    match (i.rescale exponent).nearest? with
    | some c => ⟨c, exponent⟩
    | none => searchDecimal i tries (exponent - 1)

/-- The shortest decimal that rounds to a double. Seventeen digits always suffice. -/
def shortest (b : Binary) : Decimal :=
  let i := b.interval
  searchDecimal i 17 (leadingExponent i.value i.den)

end CountedLisp.Number
