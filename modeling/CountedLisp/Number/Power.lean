/-!
# Powers

Numbers are raised to a power by squaring: a number is a fraction with an exponent of two, and both
are multiplied up along the digits of the power. What is left of a power that is not whole goes
through logarithms.
-/
namespace CountedLisp.Number

structure Scaled where
  fraction : Float
  exponent : Int

namespace Scaled

def ofFloat (x : Float) : Scaled :=
  let (fraction, exponent) := x.frExp
  { fraction, exponent }

def toFloat (x : Scaled) : Float :=
  x.fraction.scaleB x.exponent

def mul (x y : Scaled) : Scaled :=
  { fraction := x.fraction * y.fraction, exponent := x.exponent + y.exponent }

def inverse (x : Scaled) : Scaled :=
  { fraction := 1 / x.fraction, exponent := -x.exponent }

def square (x : Scaled) : Scaled :=
  let y := x.mul x
  if y.fraction < 0.5 then { fraction := y.fraction + y.fraction, exponent := y.exponent - 1 }
  else y

/-- Multiplies `acc` by `x` to the power of `n`. An exponent far out of range is only added. -/
def mulPow (acc x : Scaled) (n : Nat) : Scaled :=
  if n = 0 then acc
  else if x.exponent < -4096 || 4096 < x.exponent then
    { acc with exponent := acc.exponent + x.exponent }
  else mulPow (if n % 2 = 1 then acc.mul x else acc) x.square (n / 2)
termination_by n
decreasing_by omega

end Scaled

/-- A number to the power of another. Zero, infinite numbers and powers beyond 2⁶³ are left to the
usual conventions. -/
def power (x y : Float) : Float :=
  if y == 0 || x == 1 then 1
  else if y == 1 then x
  else if x == 0 || !x.isFinite || !y.isFinite || 9223372036854775808 ≤ y.abs then x.pow y
  else if y == 0.5 then x.sqrt
  else if y == -0.5 then 1 / x.sqrt
  else
    let whole := y.abs.floor
    let part := y.abs - whole
    if part != 0 && x < 0 then 0 / 0
    else
      -- the part that is not whole is brought down to one half
      let (whole, part) := if 0.5 < part then (whole + 1, part - 1) else (whole, part)
      let start := if part != 0 then (part * x.log).exp else 1
      let size := Scaled.mulPow { fraction := start, exponent := 0 } (.ofFloat x)
        whole.toUInt64.toNat
      (if y < 0 then size.inverse else size).toFloat

end CountedLisp.Number
