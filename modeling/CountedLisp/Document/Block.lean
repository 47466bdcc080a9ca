import CountedLisp.Document.Cursor

/-!
# Block scalars

A block scalar is made of the lines below its indicator that are indented like the first of them. A
literal one keeps its line breaks. A folded one joins lines by spaces, unless one of them starts with a
blank; empty lines stay.
-/
namespace CountedLisp.Document

inductive Chomp where
  | clip
  | strip
  | keep
  deriving DecidableEq

structure Header where
  chomp : Chomp := .clip
  increment : Nat := 0

def chomp? : Option Char → Option Chomp
  | some '+' => some .keep
  | some '-' => some .strip
  | _ => none

def digit? (c : Char) : Option Nat :=
  if '0' ≤ c && c ≤ '9' then some (c.toNat - '0'.toNat) else none

namespace Lexer

def takeChomp : Lexer (Option Chomp) := do
  return chomp? (← takeIf fun c => c == '+' || c == '-')

def takeIncrement : Lexer (Option Nat) := do
  match (← takeIf fun c => (digit? c).isSome).bind digit? with
  | some 0 => failure
  | n => return n

def takeHeader : Lexer Header := do
  match ← takeChomp with
  | some chomp => return ⟨chomp, (← takeIncrement).getD 0⟩
  | none =>
    match ← takeIncrement with
    | some increment => return ⟨(← takeChomp).getD .clip, increment⟩
    | none => return {}

def skipHeaderEnd : Lexer PUnit := do
  skipWhile isBlank
  if (← peek) == '#' then
    skipLineComment
    skipWhile (!isLineEnd ·)
  endLine

/-- Takes empty lines, at most `bound` of them, and the indentation of the line after them. Returns
their breaks and the furthest column that spaces reach. The indentation is still to be found if it is
zero. -/
def takeEmptyLines (indent : Nat) : (bound : Nat) → Lexer (List Char × Nat)
  | 0 => failure
  | bound + 1 => do
    let start ← get
    discard (takeWhileWithin (· == ' ') (if indent == 0 then start.size else indent - start.column))
    need 1
    let column := (← get).column
    if (indent == 0 || column < indent) && (← peek) == '\t' then failure
    if isBreak (← peek) then
      let first ← takeBreak
      let (more, widest) ← takeEmptyLines indent bound
      return (first ++ more, max column widest)
    else return ([], column)

/-- Takes the lines of a block scalar, at most `bound` of them. Before them came the break `last` of
a line and the breaks `empty` of empty lines after it; `indented` tells whether that line started with
a blank. Returns the breaks at the end as well. -/
def takeBlockLines (literal : Bool) (indent : Nat) :
    (bound : Nat) → (last empty : List Char) → (indented : Bool) →
      Lexer (List Char × List Char × List Char)
  | 0, _, _, _ => failure
  | bound + 1, last, empty, indented => do
    need 1
    if (← get).column != indent || (← peek) == endMark then return ([], last, empty)
    let blank := isBlank (← peek)
    let joined : List Char :=
      if !literal && !indented && !blank && last == ['\n'] then
        if empty.isEmpty then [' '] else empty
      else last ++ empty
    let line ← takeWhile (!isLineEnd ·)
    let last ← takeBreak
    let (empty, _) ← takeEmptyLines indent ((← get).size + 1)
    let (more, ends) ← takeBlockLines literal indent bound last empty blank
    return (joined ++ line ++ more, ends)

def takeBlock (literal : Bool) (parent : Int) : Lexer Text := do
  advance
  let header ← takeHeader
  skipHeaderEnd
  let given : Nat := if header.increment == 0 then 0 else (max parent 0).toNat + header.increment
  let (empty, widest) ← takeEmptyLines given ((← get).size + 1)
  let indent := if given == 0 then max widest (max (parent + 1).toNat 1) else given
  let (text, last, empty) ← takeBlockLines literal indent ((← get).size + 1) [] empty false
  return textOf <|
    match header.chomp with
    | .clip => text ++ last
    | .strip => text
    | .keep => text ++ last ++ empty

end Lexer

end CountedLisp.Document
