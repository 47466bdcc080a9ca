/-!
# Rounding a ratio to a number

Numbers are IEEE doubles. `Number.ofRatio` gives the double nearest to a ratio of two natural
numbers, and of two equally near ones the one whose last bit is zero. All arithmetic is exact.
-/
namespace CountedLisp.Number

/-- The quotient rounded to the nearest integer, a half going to the even one. -/
def divNearest (num den : Nat) : Nat :=
  let q := num / den
  let twice := 2 * (num % den)
  if twice < den then q
  else if den < twice then q + 1
  else if q % 2 = 0 then q else q + 1

/-- The ratio `num / den` divided by `2 ^ q`, as a numerator and a denominator. -/
def scaleBinary (num den : Nat) (q : Int) : Nat × Nat :=
  if 0 ≤ q then (num, den * Nat.pow 2 q.toNat) else (num * Nat.pow 2 (-q).toNat, den)

def minExponent : Int := -1074

/-- The exponent of the last bit of the doubles around `num / den`: 53 bits fit above it, unless
the ratio is so small that it is the least exponent. -/
def lastBit (num den : Nat) : Int :=
  let guess : Int := num.log2 - den.log2 - 52
  let (n, d) := scaleBinary num den guess
  let exact := if n / d < Nat.pow 2 52 then guess - 1 else guess
  max exact minExponent

/-- Bits of positive infinity, the first pattern past the finite ones. -/
def infinityBits : Nat := 0x7FF * Nat.pow 2 52

/-- Bits of the double nearest to `num / den`. The significand is added to the shifted exponent, so
a carry out of it moves on to the next exponent by itself. -/
def ratioBits (num den : Nat) : Nat :=
  if num = 0 then 0
  else
    let q := lastBit num den
    let (n, d) := scaleBinary num den q
    min ((q - minExponent).toNat * Nat.pow 2 52 + divNearest n d) infinityBits

def ofRatio (num den : Nat) : Float :=
  Float.ofBits (ratioBits num den).toUInt64

/-- Exponents past these give infinity or zero for every significand of so many digits. -/
def decimalBound : Int := 400

def ofDecimal (significand : Nat) (exponent : Int) : Float :=
  let digits : Int := (Nat.toDigits 10 significand).length
  if significand = 0 then ofRatio 0 1
  else if decimalBound < exponent + digits then Float.ofBits infinityBits.toUInt64
  else if exponent + digits < -decimalBound then ofRatio 0 1
  else if 0 ≤ exponent then ofRatio (significand * Nat.pow 10 exponent.toNat) 1
  else ofRatio significand (Nat.pow 10 (-exponent).toNat)

end CountedLisp.Number
