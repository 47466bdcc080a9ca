import CountedLisp.Document.Token
import CountedLisp.Document.Words

/-!
# Names and directives

An anchor and an alias have a name. The name of a tag is given in full between angles, or in short
after a handle. Directives stand on lines of their own in front of a document; they tell the version
of the format and what handles stand for.
-/
namespace CountedLisp.Document

def isNameChar (c : Char) : Bool :=
  ('0' ≤ c && c ≤ '9') || ('A' ≤ c && c ≤ 'Z') || ('a' ≤ c && c ≤ 'z') || c == '_' || c == '-'

def isTagChar (c : Char) : Bool :=
  isNameChar c || ";/?:@&=+$,.!~*'()[]".toList.contains c

namespace Lexer

def takeName : Lexer Text := do
  advance
  let name ← takeWhile isNameChar
  let c ← peek
  let ends := isGapOrEnd c || ['?', ':', ',', ']', '\x7d', '%', '@', '\x60'].contains c
  if name.isEmpty || !ends then failure
  return textOf name

/-! ## Tags -/

def takeByte : Lexer UInt8 := do
  need 3
  match (← peek) == '%', hexDigit? (← peekAt 1), hexDigit? (← peekAt 2) with
  | true, some high, some low =>
    advanceBy 3
    return UInt8.ofNat (high * 16 + low)
  | _, _, _ => failure

def takeContinuation : Nat → Lexer Text
  | 0 => return []
  | n + 1 => do
    let b ← takeByte
    if !Text.isContinuation b then failure
    return b :: (← takeContinuation n)

def takeBytes : Lexer Text := do
  let lead ← takeByte
  match leadSize lead with
  | 0 => failure
  | n + 1 => return lead :: (← takeContinuation n)

def takeTagNameWithin : (bound : Nat) → Lexer Text
  | 0 => return []
  | bound + 1 => do
    need 1
    let c ← peek
    if c == '%' then
      let bytes ← takeBytes
      return bytes ++ (← takeTagNameWithin bound)
    else if isTagChar c then
      advance
      return textOf [c] ++ (← takeTagNameWithin bound)
    else return []

def takeTagName : Lexer Text := do
  takeTagNameWithin (← get).size

/-- Takes a handle: a name between exclamation marks. The second one may be missing. -/
def takeHandle : Lexer (List Char) := do
  need 1
  if (← peek) != '!' then failure
  advance
  let name ← takeWhile isNameChar
  return '!' :: name ++ (← takeIf (· == '!')).toList

/-- Whether a handle is more than an exclamation mark and ends with another. -/
def isFullHandle (handle : List Char) : Bool :=
  1 < handle.length && handle.getLast? == some '!'

def takeTag : Lexer Token := do
  need 2
  let t : Token ←
    if (← peekAt 1) == '<' then do
      advanceBy 2
      let name ← takeTagName
      if name.isEmpty || (← peek) != '>' then failure
      advance
      pure (.tag [] name)
    else do
      let handle ← takeHandle
      let name ← takeTagName
      if isFullHandle handle then
        if name.isEmpty then failure
        pure (.tag (textOf handle) name)
      else
        match textOf (handle.drop 1) ++ name with
        | [] => pure (.tag [] (textOf ['!']))
        | name => pure (.tag (textOf ['!']) name)
  need 1
  if !isGapOrEnd (← peek) then failure
  return t

/-! ## Directives -/

def takeVersionNumber : Lexer Nat := do
  let digits ← takeWhileWithin (fun c => '0' ≤ c && c ≤ '9') 3
  if digits.isEmpty || 2 < digits.length then failure
  return digits.foldl (fun n c => n * 10 + (c.toNat - '0'.toNat)) 0

def takeVersion : Lexer Token := do
  skipWhile isBlank
  let major ← takeVersionNumber
  if (← peek) != '.' then failure
  advance
  return .version major (← takeVersionNumber)

def takeShorthand : Lexer Token := do
  skipWhile isBlank
  let handle ← takeHandle
  if !(isFullHandle handle || handle == ['!']) then failure
  need 1
  if !isBlank (← peek) then failure
  skipWhile isBlank
  let expansion ← takeTagName
  if expansion.isEmpty || !isGapOrEnd (← peek) then failure
  return .shorthand (textOf handle) expansion

def takeDirective : Lexer Token := do
  advance
  let name ← takeWhile isNameChar
  if !isGapOrEnd (← peek) then failure
  let t ←
    if name == "YAML".toList then takeVersion
    else if name == "TAG".toList then takeShorthand
    else failure
  skipWhile isBlank
  if (← peek) == '#' then skipWhile (!isLineEnd ·)
  endLine
  return t

end Lexer

end CountedLisp.Document
