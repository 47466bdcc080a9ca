/-!
# Texts

A text is a sequence of bytes. Names, strings, messages and sources are all texts, and every
length counts bytes, so a text need not be valid UTF-8.
-/
namespace CountedLisp

namespace Byte

@[match_pattern] abbrev tab : UInt8 := 9
@[match_pattern] abbrev newline : UInt8 := 10
@[match_pattern] abbrev carriageReturn : UInt8 := 13
@[match_pattern] abbrev space : UInt8 := 32
@[match_pattern] abbrev doubleQuote : UInt8 := 34
@[match_pattern] abbrev hash : UInt8 := 35
@[match_pattern] abbrev singleQuote : UInt8 := 39
@[match_pattern] abbrev openParen : UInt8 := 40
@[match_pattern] abbrev closeParen : UInt8 := 41
@[match_pattern] abbrev plus : UInt8 := 43
@[match_pattern] abbrev comma : UInt8 := 44
@[match_pattern] abbrev minus : UInt8 := 45
@[match_pattern] abbrev dot : UInt8 := 46
@[match_pattern] abbrev zero : UInt8 := 48
@[match_pattern] abbrev nine : UInt8 := 57
@[match_pattern] abbrev colon : UInt8 := 58
@[match_pattern] abbrev equals : UInt8 := 61
@[match_pattern] abbrev openBracket : UInt8 := 91
@[match_pattern] abbrev backslash : UInt8 := 92
@[match_pattern] abbrev closeBracket : UInt8 := 93

end Byte

abbrev Text := List UInt8

namespace Text

def ofString (s : String) : Text :=
  s.toUTF8.data.toList

instance : Coe String (List UInt8) := ⟨ofString⟩

def ofNat (n : Nat) : Text :=
  (Nat.toDigits 10 n).map fun c => c.toNat.toUInt8

def ofInt : Int → Text
  | .ofNat n => ofNat n
  | .negSucc n => "-" ++ ofNat (n + 1)

/-- Lowercase hexadecimal digits, at least `width` of them. -/
def hexDigits (width n : Nat) : Text :=
  let digits := (Nat.toDigits 16 n).map fun c => c.toNat.toUInt8
  List.replicate (width - digits.length) Byte.zero ++ digits

def hex (n : Nat) : Text :=
  "0x" ++ hexDigits 1 n

def padRight (width : Nat) (t : Text) : Text :=
  t ++ List.replicate (width - t.length) Byte.space

def line (t : Text) : Text :=
  t ++ [Byte.newline]

def ensureLine (t : Text) : Text :=
  if t.getLast? = some Byte.newline then t else t.line

/-- The bytes that separate tokens: space, tab, newline, vertical tab, form feed and
carriage return. -/
def isSpace (b : UInt8) : Bool :=
  b == Byte.space || (Byte.tab ≤ b && b ≤ Byte.carriageReturn)

def skipSpace (t : Text) : Text :=
  t.dropWhile isSpace

end Text

end CountedLisp
