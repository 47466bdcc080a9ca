import CountedLisp.Text.Basic

/-!
# UTF-8 view of a text

`Text.units` splits a text into the characters it encodes and the bytes that are not part of a
valid encoding. The bytes of the units, one after another, are the text again.
-/
namespace CountedLisp.Text

/-- One step of a UTF-8 reading: a character with its encoding, or a stray byte. -/
inductive Unit8 where
  | char (code : Nat) (bytes : Text)
  | stray (byte : UInt8)
  deriving Repr, DecidableEq

def Unit8.bytes : Unit8 → Text
  | .char _ bs => bs
  | .stray b => [b]

def isContinuation (b : UInt8) : Bool :=
  0x80 ≤ b && b ≤ 0xBF

/-- The second byte that may follow a lead byte of a sequence of three bytes. It excludes
overlong forms and surrogates. -/
def isSecondOfThree (lead b : UInt8) : Bool :=
  isContinuation b && (lead != 0xE0 || 0xA0 ≤ b) && (lead != 0xED || b ≤ 0x9F)

/-- The second byte that may follow a lead byte of a sequence of four bytes. It excludes
overlong forms and codes past the last plane. -/
def isSecondOfFour (lead b : UInt8) : Bool :=
  isContinuation b && (lead != 0xF0 || 0x90 ≤ b) && (lead != 0xF4 || b ≤ 0x8F)

private def low (b : UInt8) (bits : Nat) : Nat :=
  b.toNat % Nat.pow 2 bits

def firstChar? : Text → Option (Nat × Text)
  | [] => none
  | a :: rest =>
    if a < 0x80 then some (a.toNat, [a])
    else if 0xC2 ≤ a && a ≤ 0xDF then
      match rest with
      | b :: _ =>
        if isContinuation b then some (low a 5 * 64 + low b 6, [a, b]) else none
      | _ => none
    else if 0xE0 ≤ a && a ≤ 0xEF then
      match rest with
      | b :: c :: _ =>
        if isSecondOfThree a b && isContinuation c then
          some ((low a 4 * 64 + low b 6) * 64 + low c 6, [a, b, c])
        else none
      | _ => none
    else if 0xF0 ≤ a && a ≤ 0xF4 then
      match rest with
      | b :: c :: d :: _ =>
        if isSecondOfFour a b && isContinuation c && isContinuation d then
          some (((low a 3 * 64 + low b 6) * 64 + low c 6) * 64 + low d 6, [a, b, c, d])
        else none
      | _ => none
    else none

/-- The units of a text whose first `done` bytes belong to a character already taken. -/
def unitsAfter : (done : Nat) → Text → List Unit8
  | _, [] => []
  | done + 1, _ :: rest => unitsAfter done rest
  | 0, a :: rest =>
    match firstChar? (a :: rest) with
    | some (code, bytes) => .char code bytes :: unitsAfter (bytes.length - 1) rest
    | none => .stray a :: unitsAfter 0 rest

def units (t : Text) : List Unit8 :=
  unitsAfter 0 t

def isBlankCode (c : Nat) : Bool :=
  (9 ≤ c && c ≤ 13) || c == 0x20 || c == 0x85 || c == 0xA0 || c == 0x1680 ||
  (0x2000 ≤ c && c ≤ 0x200A) || c == 0x2028 || c == 0x2029 || c == 0x202F || c == 0x205F ||
  c == 0x3000

def Unit8.isBlank : Unit8 → Bool
  | .char c _ => isBlankCode c
  | .stray _ => false

def trimBlanks (t : Text) : Text :=
  let kept := (t.units.dropWhile Unit8.isBlank).reverse.dropWhile Unit8.isBlank
  kept.reverse.flatMap Unit8.bytes

def isUtf8 (t : Text) : Bool :=
  t.units.all fun
    | .char _ _ => true
    | .stray _ => false

end CountedLisp.Text
