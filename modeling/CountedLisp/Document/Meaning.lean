import CountedLisp.Document.Base64
import CountedLisp.Document.Timestamp
import CountedLisp.Document.Token
import CountedLisp.Document.Words

/-!
# What scalars mean

A plain scalar may spell nothing, a truth value, an integer or a decimal; everything else is words.
A quoted scalar is words unless a tag says otherwise. A tag of one of these types must fit, and so must
that of a timestamp; other tags make words of everything.
-/
namespace CountedLisp.Document

inductive Meaning where
  | nothing
  | truth (b : Bool)
  | integer (n : Int)
  | decimal (x : Float)
  | words (t : Text)
  deriving Repr, BEq

namespace Meaning

def isOneOf (names : List String) (t : Text) : Bool :=
  names.any fun name => Text.ofString name = t

def natural? (base : Nat) (digits : Text) : Option Nat :=
  if digits.isEmpty then none
  else
    let next (n : Nat) (b : UInt8) : Option Nat :=
      (Lexer.hexDigit? (Char.ofNat b.toNat)).bind fun d =>
        if d < base then some (n * base + d) else none
    digits.foldlM next 0

/-- A natural number in the base that its start tells: `0x`, `0o`, `0b`, `0`, or else ten. -/
def unsigned? : Text → Option Nat
  | Byte.zero :: mark :: rest =>
    if (Text.ofString "xX").contains mark then natural? 16 rest
    else if (Text.ofString "oO").contains mark then natural? 8 rest
    else if (Text.ofString "bB").contains mark then natural? 2 rest
    else natural? 8 (mark :: rest)
  | t => natural? 10 t

/-- An integer of 64 bits by its sign and its size, or one without sign that needs all of them. -/
def signed? (negative : Option Bool) (n : Nat) : Option Int :=
  if negative = some true then if n ≤ Nat.pow 2 63 then some (-n) else none
  else if n < Nat.pow 2 63 || (negative.isNone && n < Nat.pow 2 64) then some n
  else none

def integer? (t : Text) : Option Int :=
  let (negative, size) := Number.sign t
  (unsigned? size).bind (signed? negative)

/-- An integer with its sign between the letter that tells the base and the digits. -/
def integerInside? (t : Text) : Option Int :=
  let base? : Option Nat :=
    if t.take 2 = Text.ofString "0b" then some 2
    else if t.take 2 = Text.ofString "0o" then some 8
    else none
  match base?, Number.sign (t.drop 2) with
  | some base, (some negative, size) => (natural? base size).bind (signed? (some negative))
  | _, _ => none

def decimal? (t : Text) : Option Float :=
  (Number.decimal? t).filter (!·.isInf)

def unlimited? (t : Text) : Option Float :=
  if isOneOf [".nan", ".NaN", ".NAN"] t then some (0.0 / 0.0)
  else if isOneOf [".inf", ".Inf", ".INF", "+.inf", "+.Inf", "+.INF"] t then some (1.0 / 0.0)
  else if isOneOf ["-.inf", "-.Inf", "-.INF"] t then some (-1.0 / 0.0)
  else none

/-- What a text that starts like a number means. Underscores do not count. -/
def ofNumber (t : Text) : Meaning :=
  let digits := t.filter (· != Number.underscore)
  match integer? digits, decimal? digits, integerInside? digits with
  | some n, _, _ => .integer n
  | none, some x, _ => .decimal x
  | none, none, some n => .integer n
  | none, none, none => .words t

/-- What a plain text means. After a leading point, underscores stand between digits. -/
def ofText (t : Text) : Meaning :=
  if isOneOf ["", "~", "null", "Null", "NULL"] t then .nothing
  else if isOneOf ["true", "True", "TRUE"] t then .truth true
  else if isOneOf ["false", "False", "FALSE"] t then .truth false
  else
    match unlimited? t, t with
    | some x, _ => .decimal x
    | none, b :: _ =>
      if Number.isDigit b || b == Byte.plus || b == Byte.minus then ofNumber t
      else if b == Byte.dot then
        (((Number.withoutUnderscores? t).bind decimal?).map Meaning.decimal).getD (.words t)
      else .words t
    | none, [] => .nothing

end Meaning

def Scalar.meaning? (s : Scalar) : Option Meaning :=
  match s.tag, Meaning.ofText s.text with
  | .implied, m => some (if s.quoted then .words s.text else m)
  | .null, .nothing => some .nothing
  | .bool, .truth b => some (.truth b)
  | .int, .integer n => some (.integer n)
  | .float, .integer n => if n < Int.pow 2 63 then some (.decimal (Float.ofInt n)) else none
  | .float, .decimal x => some (.decimal x)
  | .timestamp, _ => if Timestamp.isTimestamp s.text then some (.words s.text) else none
  | .binary, _ => (Base64.decode? s.text).map .words
  | .str, _ | .merge, _ | .other, _ => some (.words s.text)
  | _, _ => none

def Scalar.isText (s : Scalar) : Bool :=
  match s.tag, Meaning.ofText s.text with
  | .str, _ | .merge, _ => true
  | .implied, .words _ => s.quoted || !Timestamp.isTimestamp s.text
  | .implied, _ => s.quoted
  | _, _ => false

def Scalar.isMerge (s : Scalar) : Bool :=
  s.text = Text.ofString "<<" && (s.tag == .merge || (s.tag == .implied && !s.quoted))

end CountedLisp.Document
