import CountedLisp.Text.Basic

/-!
# Bytes as letters

In base 64, four letters stand for three bytes. Equals signs fill up the last group, and line breaks
do not count.
-/
namespace CountedLisp.Document.Base64

def digit? (b : UInt8) : Option Nat :=
  if 'A'.toUInt8 ≤ b && b ≤ 'Z'.toUInt8 then some (b - 'A'.toUInt8).toNat
  else if 'a'.toUInt8 ≤ b && b ≤ 'z'.toUInt8 then some ((b - 'a'.toUInt8).toNat + 26)
  else if Byte.zero ≤ b && b ≤ Byte.nine then some ((b - Byte.zero).toNat + 52)
  else if b == Byte.plus then some 62
  else if b == '/'.toUInt8 then some 63
  else none

def group? (letters : Text) : Option Text :=
  match letters.mapM digit? with
  | some digits =>
    let n := digits.foldl (fun n d => n * 64 + d) 0
    some [UInt8.ofNat (n / 65536), UInt8.ofNat (n / 256), UInt8.ofNat n]
  | none => none

def groups? : Text → Option Text
  | [] => some []
  | [a, b, Byte.equals, Byte.equals] => (group? [a, b, 'A'.toUInt8, 'A'.toUInt8]).map (·.take 1)
  | [a, b, c, Byte.equals] => (group? [a, b, c, 'A'.toUInt8]).map (·.take 2)
  | a :: b :: c :: d :: rest =>
    match group? [a, b, c, d], groups? rest with
    | some bytes, some more => some (bytes ++ more)
    | _, _ => none
  | _ => none

def decode? (t : Text) : Option Text :=
  groups? (t.filter fun b => b != Byte.newline && b != Byte.carriageReturn)

end CountedLisp.Document.Base64
