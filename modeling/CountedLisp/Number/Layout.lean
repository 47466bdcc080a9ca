import CountedLisp.Number.Shortest
import CountedLisp.Text.Basic

/-!
# Printed numbers

A number is printed by its shortest decimal. If the leading digit stands at a place from `10 ^ -4`
to `10 ^ 5` the decimal is written out, otherwise with an exponent of at least two digits and a
sign. Zero keeps its sign, and the infinities and not-a-number have names.
-/
namespace CountedLisp.Number

/-- The digits of a decimal without trailing zeros, and the exponent of the leading one. -/
def Decimal.significant (d : Decimal) : Text × Int :=
  let all := Text.ofNat d.digits
  ((all.reverse.dropWhile (· == Byte.zero)).reverse, d.exponent + (all.length : Int) - 1)

def zeros (n : Nat) : Text :=
  List.replicate n Byte.zero

def plain (digits : Text) (exponent : Int) : Text :=
  if exponent < 0 then "0." ++ zeros ((-exponent).toNat - 1) ++ digits
  else
    let whole := exponent.toNat + 1
    if digits.length ≤ whole then digits ++ zeros (whole - digits.length)
    else digits.take whole ++ "." ++ digits.drop whole

def pointed (fraction : Text) : Text :=
  if fraction.isEmpty then [] else "." ++ fraction

def scientific (digits : Text) (exponent : Int) : Text :=
  let sign : Text := if exponent < 0 then "-" else "+"
  let size := Text.ofNat exponent.natAbs
  digits.take 1 ++ pointed (digits.drop 1) ++ "e" ++ sign ++ zeros (2 - size.length) ++ size

/-- Exponents of the leading digit for which a number is written out. -/
def isPlainExponent (exponent : Int) : Bool :=
  -4 ≤ exponent && exponent < 6

def Binary.text (b : Binary) : Text :=
  let (digits, exponent) := (shortest b).significant
  if isPlainExponent exponent then plain digits exponent else scientific digits exponent

def text (x : Float) : Text :=
  let bits := x.toBits.toNat
  let size := bits % Nat.pow 2 63
  let sign : Text := if bits < Nat.pow 2 63 then [] else "-"
  if infinityBits < size then "NaN"
  else if size = infinityBits then if bits < Nat.pow 2 63 then "+Inf" else "-Inf"
  else if size = 0 then sign ++ "0"
  else sign ++ (Binary.ofBits size).text

end CountedLisp.Number
