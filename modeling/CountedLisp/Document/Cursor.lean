import CountedLisp.Document.Source

/-!
# Reading a document

A cursor is a place in a source. It moves from character to character and knows its line, its column
and how many characters it has passed. A carriage return in front of a newline is one break with it.

The cursor keeps characters at hand. Before more of them are looked at than there are, blocks are
loaded, and at the end of the source an end mark. The characters that are then at hand may start with
a byte order mark; until they are loaded again, one character is passed over wherever the search for
a token comes to the start of a line.
-/
namespace CountedLisp.Document

structure Cursor where
  /-- The characters at hand, from here on. -/
  ahead : List Char := []
  /-- The blocks that are still to be loaded. -/
  blocks : List Block
  line : Nat := 0
  column : Nat := 0
  index : Nat := 0
  /-- Whether there are only blanks between the last line break and here. -/
  onNewLine : Bool := false
  /-- Whether the characters at hand started with a byte order mark when they were loaded. -/
  marked : Bool := false
  /-- No more characters than this are in the source. -/
  size : Nat
  deriving Repr

namespace Cursor

def start (t : Text) : Cursor :=
  { blocks := Document.blocks t, size := t.length + 1 }

def load (n : Nat) (ahead : List Char) : List Block → Option (List Char × List Block)
  | [] => some (ahead ++ [endMark], [])
  | none :: _ => none
  | some cs :: rest =>
    if n ≤ (ahead ++ cs).length then some (ahead ++ cs, rest) else load n (ahead ++ cs) rest

def has (c : Cursor) (n : Nat) : Bool :=
  (c.ahead.take n).length == n

def need (c : Cursor) (n : Nat) : Option Cursor :=
  if c.has n then some c
  else
    (load n c.ahead c.blocks).map fun (ahead, blocks) =>
      { c with ahead, blocks, marked := ahead.head? == some byteOrderMark }

def charAt (c : Cursor) (offset : Nat) : Char :=
  c.ahead.getD offset endMark

def advance (c : Cursor) : Cursor :=
  { c with
    ahead := c.ahead.drop 1
    column := c.column + 1
    index := c.index + 1
    onNewLine := c.onNewLine && isBlank (c.charAt 0) }

def nextLine (c : Cursor) (width : Nat) : Cursor :=
  { c with
    ahead := c.ahead.drop width
    line := c.line + 1
    column := 0
    index := c.index + width
    onNewLine := true }

/-- Whether three dashes or three dots stand here at the start of a line, with a blank or nothing
after them. -/
def isMarker (c : Cursor) (mark : Char) : Bool :=
  c.column == 0 && c.ahead.take 3 == [mark, mark, mark] && isGapOrEnd (c.charAt 3)

def isAnyMarker (c : Cursor) : Bool :=
  c.isMarker '-' || c.isMarker '.'

end Cursor

abbrev Lexer := StateT Cursor Option

namespace Lexer

def need (n : Nat) : Lexer PUnit := do
  match (← get).need n with
  | some c => set c
  | none => failure

def peekAt (offset : Nat) : Lexer Char := do
  return (← get).charAt offset

def peek : Lexer Char :=
  peekAt 0

def advance : Lexer PUnit :=
  modify Cursor.advance

def advanceBy : Nat → Lexer PUnit
  | 0 => pure ⟨⟩
  | n + 1 => do
    advance
    advanceBy n

def takeBreak : Lexer (List Char) := do
  need 2
  let c ← get
  if c.charAt 0 == '\r' && c.charAt 1 == '\n' then
    set (c.nextLine 2)
    return ['\n']
  else if isBreak (c.charAt 0) then
    set (c.nextLine 1)
    return [if c.charAt 0 == '\r' || c.charAt 0 == nextLine then '\n' else c.charAt 0]
  else return []

def takeWhileWithin (p : Char → Bool) : (bound : Nat) → Lexer (List Char)
  | 0 => return []
  | bound + 1 => do
    need 1
    let c ← peek
    if p c then
      advance
      return c :: (← takeWhileWithin p bound)
    else return []

def takeWhile (p : Char → Bool) : Lexer (List Char) := do
  takeWhileWithin p (← get).size

def skipWhile (p : Char → Bool) : Lexer PUnit := do
  discard (takeWhile p)

def takeIf (p : Char → Bool) : Lexer (Option Char) := do
  need 1
  let c ← peek
  if p c then
    advance
    return some c
  else return none

def endLine : Lexer PUnit := do
  let c ← peek
  if isBreak c then discard takeBreak
  else if c != endMark then failure

/-! ## Comments -/

/-- How far ahead a comment starts, after characters for which `p` holds, at most `bound` of them. A
break that takes up more than a byte ends the search. -/
def commentAhead (p : Char → Bool) : (bound offset : Nat) → Lexer (Option Nat)
  | 0, _ => return none
  | bound + 1, offset => do
    need (offset + 1)
    let c ← peekAt offset
    if c == '#' then return some offset
    else if !p c then return none
    else if isGap c && 0x7F < c.toNat then
      need (offset + 2)
      return none
    else commentAhead p bound (offset + 1)

def skipToLineEnd (index : Nat) : (bound : Nat) → Lexer PUnit
  | 0 => return ⟨⟩
  | bound + 1 => do
    need 1
    if !isLineEnd (← peek) then
      advance
      skipToLineEnd index bound
    else if (← get).index < index then
      let _ ← takeBreak
      skipToLineEnd index bound

/-- Moves over a comment, if there is one less than 512 characters ahead. -/
def skipCommentAfter (p : Char → Bool) : Lexer Bool := do
  match ← commentAhead p 512 0 with
  | some offset =>
    let c ← get
    skipToLineEnd (c.index + offset) c.size
    return true
  | none => return false

def skipLineComment : Lexer PUnit := do
  if !(← get).onNewLine then discard (skipCommentAfter isBlank)

def skipComments : (bound : Nat) → Lexer PUnit
  | 0 => return ⟨⟩
  | bound + 1 => do
    if ← skipCommentAfter isGap then skipComments bound

end Lexer

end CountedLisp.Document
