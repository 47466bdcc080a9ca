import CountedLisp.Number.Rounding
import CountedLisp.Text.Basic

/-!
# Number literals

A literal is an optional minus sign, digits, an optional point with digits after it, and an
optional exponent. `Number.scan?` takes the longest literal that a text starts with, and
`Literal.value` is the nearest number to what it says, infinite if it is out of range.
-/
namespace CountedLisp.Number

def isDigit (b : UInt8) : Bool :=
  Byte.zero ≤ b && b ≤ Byte.nine

def digitValue (b : UInt8) : Nat :=
  b.toNat - Byte.zero.toNat

def ofDigits (digits : Text) : Nat :=
  digits.foldl (fun n b => 10 * n + digitValue b) 0

/-- The exponent that decimal digits spell, no longer followed once it has five digits. -/
def boundedExponent (digits : Text) : Nat :=
  digits.foldl (fun n b => if n < 10000 then 10 * n + digitValue b else n) 0

structure Literal where
  negative : Bool
  whole : Text
  fraction : Text
  negativeExponent : Bool
  exponent : Text
  deriving Repr, DecidableEq

def Literal.value (l : Literal) : Float :=
  let size := boundedExponent l.exponent
  let exponent : Int := if l.negativeExponent then -(size : Int) else size
  let x := ofDecimal (ofDigits (l.whole ++ l.fraction)) (exponent - l.fraction.length)
  if l.negative then -x else x

/-- Splits off the fraction of a literal: a point and any number of digits. -/
def scanFraction : Text → Text × Text
  | Byte.dot :: rest => rest.span isDigit
  | rest => ([], rest)

def isExponentMark (b : UInt8) : Bool :=
  b == 'e'.toUInt8 || b == 'E'.toUInt8

/-- Splits off the exponent of a literal: a mark, an optional sign, and at least one digit. -/
def scanExponent (t : Text) : (Bool × Text) × Text :=
  match t with
  | mark :: rest =>
    if isExponentMark mark then
      let negative := rest.head? == some Byte.minus
      let digits := if negative || rest.head? == some Byte.plus then rest.drop 1 else rest
      match digits.span isDigit with
      | ([], _) => ((false, []), t)
      | (ds, rest) => ((negative, ds), rest)
    else ((false, []), t)
  | [] => ((false, []), t)

/-- The longest literal that a text starts with, and what follows it. -/
def scan? (t : Text) : Option (Literal × Text) :=
  let negative := t.head? == some Byte.minus
  match (if negative then t.drop 1 else t).span isDigit with
  | ([], _) => none
  | (whole, rest) =>
    let (fraction, rest) := scanFraction rest
    let ((negativeExponent, exponent), rest) := scanExponent rest
    some (⟨negative, whole, fraction, negativeExponent, exponent⟩, rest)

def sign : Text → Option Bool × Text
  | Byte.minus :: rest => (some true, rest)
  | Byte.plus :: rest => (some false, rest)
  | t => (none, t)

def signed (negative : Option Bool) (size : Float) : Float :=
  if negative = some true then -size else size

/-- The number that a text spells as a decimal. Either sign may stand in front, and digits may be
missing before the point or after it, not on both sides. -/
def decimal? (t : Text) : Option Float :=
  let (negative, size) := sign t
  let whole : Text :=
    match size with
    | Byte.dot :: b :: _ => if isDigit b then Byte.zero :: size else []
    | _ => size
  match scan? whole with
  | some (l, []) => if l.negative then none else some (signed negative l.value)
  | _ => none

def underscore : UInt8 := '_'.toUInt8

/-- The text without underscores, if each of them stands between two digits. -/
def withoutUnderscores? : Text → Option Text
  | a :: b :: c :: rest =>
    if b == underscore then
      if isDigit a && isDigit c then (withoutUnderscores? (c :: rest)).map (a :: ·) else none
    else (withoutUnderscores? (b :: c :: rest)).map (a :: ·)
  | t => if t.contains underscore then none else some t

def smallLetter (b : UInt8) : UInt8 :=
  if 'A'.toUInt8 ≤ b && b ≤ 'Z'.toUInt8 then b + 32 else b

def special? (t : Text) : Option Float :=
  let (negative, name) := sign (t.map smallLetter)
  if name = Text.ofString "inf" || name = Text.ofString "infinity" then
    some (signed negative (1.0 / 0.0))
  else if negative.isNone && name = Text.ofString "nan" then some (0.0 / 0.0)
  else none

/-- The number that a text spells as a whole: a decimal, in which underscores may stand between
digits, or the name of a special number. -/
def parse? (t : Text) : Option Float :=
  ((withoutUnderscores? t).bind decimal?).or (special? t)

end CountedLisp.Number
