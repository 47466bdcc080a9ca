import CountedLisp.Text.Utf8

/-!
# The source of a document

A document is a text of characters. It is UTF-8 unless it starts with a byte order mark of UTF-16, and
no control characters stand in it.

A source is loaded in blocks of 512 bytes. A character that is cut off at the end of a block belongs
to the next one. What is wrong in a block does not matter before the block is needed.
-/
namespace CountedLisp.Document

/-- The character past the end of a source. It cannot occur before. -/
@[match_pattern] abbrev endMark : Char := '\x00'

def byteOrderMark : Char := Char.ofNat 0xFEFF

def isBlank (c : Char) : Bool :=
  c == ' ' || c == '\t'

/-- The break that is read as a newline, though it is a character of its own. -/
def nextLine : Char := Char.ofNat 0x85

def isBreak (c : Char) : Bool :=
  c == '\n' || c == '\r' || c == nextLine || c == Char.ofNat 0x2028 || c == Char.ofNat 0x2029

def isLineEnd (c : Char) : Bool :=
  isBreak c || c == endMark

def isGap (c : Char) : Bool :=
  isBlank c || isBreak c

def isGapOrEnd (c : Char) : Bool :=
  isGap c || c == endMark

def isAllowed (code : Nat) : Bool :=
  code == 9 || code == 10 || code == 13 || (32 ≤ code && code ≤ 126) || code == 0x85 ||
  (0xA0 ≤ code && code ≤ 0xD7FF) || (0xE000 ≤ code && code ≤ 0xFFFD) || 0x10000 ≤ code

def textOf (cs : List Char) : Text :=
  Text.ofString (String.ofList cs)

inductive Encoding where
  | utf8
  | utf16 (bigEndian : Bool)
  deriving Repr, DecidableEq

/-- How many bytes a character of UTF-8 takes up, told by its first one. It is none for a byte that
starts no character. -/
def leadSize (lead : UInt8) : Nat :=
  if lead < 0x80 then 1
  else if lead < 0xC0 then 0
  else if lead < 0xE0 then 2
  else if lead < 0xF0 then 3
  else if lead < 0xF8 then 4
  else 0

def joinBytes (bigEndian : Bool) (a b : UInt8) : Nat :=
  if bigEndian then a.toNat * 256 + b.toNat else a.toNat + b.toNat * 256

def isHighHalf (pair : Nat) : Bool :=
  0xD800 ≤ pair && pair ≤ 0xDBFF

def isLowHalf (pair : Nat) : Bool :=
  0xDC00 ≤ pair && pair ≤ 0xDFFF

namespace Encoding

def size : Encoding → Text → Nat
  | _, [] => 0
  | .utf8, lead :: _ => leadSize lead
  | .utf16 _, [_] => 2
  | .utf16 bigEndian, a :: b :: _ =>
    let pair := joinBytes bigEndian a b
    if isLowHalf pair then 0 else if isHighHalf pair then 4 else 2

def code? : Encoding → Text → Option Nat
  | .utf8, t => (Text.firstChar? t).map (·.1)
  | .utf16 bigEndian, [a, b] => some (joinBytes bigEndian a b)
  | .utf16 bigEndian, [a, b, c, d] =>
    let high := joinBytes bigEndian a b
    let low := joinBytes bigEndian c d
    if isLowHalf low then some (0x10000 + (high - 0xD800) * 1024 + (low - 0xDC00)) else none
  | _, _ => none

/-- The characters that are written as the given bytes, at most `bound` of them, and the bytes of a
character that is cut off. -/
def decode? (e : Encoding) : (bound : Nat) → Text → Option (List Char × Text)
  | 0, t => some ([], t)
  | _, [] => some ([], [])
  | bound + 1, t =>
    let first := t.take (e.size t)
    if first.isEmpty then none
    else if first.length < e.size t then some ([], t)
    else
      match e.code? first with
      | none => none
      | some code =>
        if isAllowed code then
          (e.decode? bound (t.drop first.length)).map fun (cs, cut) => (Char.ofNat code :: cs, cut)
        else none

end Encoding

abbrev Block := Option (List Char)

def blockSize : Nat := 512

def blocksWithin (e : Encoding) : (bound room : Nat) → Text → List Block
  | 0, _, _ => []
  | _, _, [] => []
  | bound + 1, room, t =>
    match e.decode? room (t.take room), t.drop room with
    | none, _ => [none]
    | some (cs, []), [] => [some cs]
    | some (cs, _), [] => [some cs, none]
    | some (cs, cut), rest => some cs :: blocksWithin e bound blockSize (cut ++ rest)

/-- The blocks of a source. The mark that tells its encoding takes up room in the first one. -/
def blocks (t : Text) : List Block :=
  let after (e : Encoding) (mark : Nat) : List Block :=
    blocksWithin e (t.length + 1) (blockSize - mark) (t.drop mark)
  match t with
  | 0xFF :: 0xFE :: _ => after (.utf16 false) 2
  | 0xFE :: 0xFF :: _ => after (.utf16 true) 2
  | 0xEF :: 0xBB :: 0xBF :: _ => after .utf8 3
  | _ => after .utf8 0

end CountedLisp.Document
