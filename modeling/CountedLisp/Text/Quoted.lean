import CountedLisp.Text.Printable

/-!
# Quoted texts

Messages show pieces of input between double quotes. A quoted text has printable characters only:
quotes, backslashes, control characters, other unprintable characters and stray bytes are written
as escapes.
-/
namespace CountedLisp.Text

def escapeChar (code : Nat) (bytes : Text) : Text :=
  if code == 34 then "\\\""
  else if code == 92 then "\\\\"
  else if isPrintable code then bytes
  else if code == 7 then "\\a"
  else if code == 8 then "\\b"
  else if code == 9 then "\\t"
  else if code == 10 then "\\n"
  else if code == 11 then "\\v"
  else if code == 12 then "\\f"
  else if code == 13 then "\\r"
  else if code < 32 || code == 127 then "\\x" ++ hexDigits 2 code
  else if code < 0x10000 then "\\u" ++ hexDigits 4 code
  else "\\U" ++ hexDigits 8 code

def Unit8.escape : Unit8 → Text
  | .char code bytes => escapeChar code bytes
  | .stray b => "\\x" ++ hexDigits 2 b.toNat

def quoted (t : Text) : Text :=
  "\"" ++ t.units.flatMap Unit8.escape ++ "\""

/-- Quotes at most the first twenty bytes, and marks what was left out. -/
def quotedStart (t : Text) : Text :=
  if 20 < t.length then quoted (t.take 20 ++ "...") else quoted t

end CountedLisp.Text
