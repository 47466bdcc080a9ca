import CountedLisp.Number.Literal

/-!
# Timestamps

A timestamp is a date, alone or with a time. After the letter T the time has a zone, after blanks it
has none. Months, days, hours, minutes and seconds may have one digit.
-/
namespace CountedLisp.Document.Timestamp

def number? (least greatest : Nat) (t : Text) : Option (Nat × Text) :=
  let digits := (t.take 2).takeWhile Number.isDigit
  let n := Number.ofDigits digits
  if digits.isEmpty || n < least || greatest < n then none else some (n, t.drop digits.length)

def after? (b : UInt8) : Text → Option Text
  | c :: rest => if c == b then some rest else none
  | [] => none

def daysOf (year month : Nat) : Nat :=
  if month == 2 then
    if year % 4 == 0 && (year % 100 != 0 || year % 400 == 0) then 29 else 28
  else if [4, 6, 9, 11].contains month then 30
  else 31

def afterDate? (t : Text) : Option Text := do
  let year := t.takeWhile Number.isDigit
  if year.length != 4 then none
  let (month, rest) ← number? 1 12 (← after? Byte.minus (t.drop 4))
  let (_, rest) ← number? 1 (daysOf (Number.ofDigits year) month) (← after? Byte.minus rest)
  return rest

def afterFraction : Text → Text
  | mark :: b :: rest =>
    if (mark == Byte.dot || mark == Byte.comma) && Number.isDigit b then rest.dropWhile Number.isDigit
    else mark :: b :: rest
  | t => t

def afterTime? (t : Text) : Option Text := do
  let (_, rest) ← number? 0 23 t
  let (_, rest) ← number? 0 59 (← after? Byte.colon rest)
  let (_, rest) ← number? 0 59 (← after? Byte.colon rest)
  return afterFraction rest

/-- Whether a text is a zone: the letter Z, or a sign with hours and minutes of two digits each. -/
def isZone : Text → Bool
  | [b] => b == 'Z'.toUInt8
  | [sign, a, b, Byte.colon, c, d] =>
    (sign == Byte.plus || sign == Byte.minus) && [a, b, c, d].all Number.isDigit &&
      Number.ofDigits [a, b] ≤ 24 && Number.ofDigits [c, d] ≤ 60
  | _ => false

def isTimestamp (t : Text) : Bool :=
  match afterDate? t with
  | none => false
  | some [] => true
  | some (mark :: rest) =>
    if mark == Byte.space then afterTime? (rest.dropWhile (· == Byte.space)) == some []
    else if mark == 'T'.toUInt8 || mark == 't'.toUInt8 then ((afterTime? rest).map isZone).getD false
    else false

end CountedLisp.Document.Timestamp
