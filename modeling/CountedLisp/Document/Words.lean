import CountedLisp.Document.Cursor

/-!
# Plain and quoted scalars

The words of a scalar may stand on several lines. Between words, one line break counts as a space,
and of several the first is dropped; blanks around breaks vanish. Only newlines are dropped or turned
into spaces.
-/
namespace CountedLisp.Document

structure Gap where
  /-- The blanks in front of the first break. -/
  blanks : List Char := []
  breaks : List Char := []

def Gap.folded (g : Gap) : List Char :=
  match g.breaks with
  | [] => g.blanks
  | ['\n'] => [' ']
  | '\n' :: more => more
  | breaks => breaks

namespace Lexer

/-- Takes a gap of at most `bound` characters. After a break, which `broken` tells, no tab stands in
front of column `margin`. -/
def takeGapWithin (margin : Nat) : (bound : Nat) → (broken : Bool) → Lexer Gap
  | 0, _ => failure
  | bound + 1, broken => do
    need 1
    let c ← peek
    if isBlank c then
      if broken && c == '\t' && (← get).column < margin then failure
      advance
      let more ← takeGapWithin margin bound broken
      return if broken then more else { more with blanks := c :: more.blanks }
    else if isBreak c then
      let breaks ← takeBreak
      let more ← takeGapWithin margin bound true
      return ⟨[], breaks ++ more.breaks⟩
    else return {}

def takeGap (margin : Nat) (broken : Bool) : Lexer Gap := do
  takeGapWithin margin ((← get).size + 1) broken

/-! ## Plain scalars -/

def isFlowIndicator (c : Char) : Bool :=
  [',', '?', '[', ']', '\x7b', '\x7d'].contains c

def endsPlain (flow : Bool) (c after : Char) : Bool :=
  isGapOrEnd c || (c == ':' && isGapOrEnd after) || (flow && isFlowIndicator c)

def takePlainWord (flow : Bool) : (bound : Nat) → Lexer (List Char)
  | 0 => return []
  | bound + 1 => do
    let c ← peek
    if endsPlain flow c (← peekAt 1) then return []
    else
      advance
      need 2
      return c :: (← takePlainWord flow bound)

/-- Takes words of a plain scalar, at most `bound` of them, after the given gap. Tells also whether
line breaks after the last word were taken. -/
def takePlainWords (flow : Bool) (margin : Nat) : (bound : Nat) → Gap → Lexer (List Char × Bool)
  | 0, _ => failure
  | bound + 1, before => do
    need 4
    let broken := !before.breaks.isEmpty
    if (← get).isAnyMarker || (← peek) == '#' then return ([], broken)
    let word ← takePlainWord flow (← get).size
    if word.isEmpty then return ([], broken)
    let text := before.folded ++ word
    if !isGap (← peek) then return (text, false)
    let gap ← takeGap margin false
    if !flow && (← get).column < margin then return (text, !gap.breaks.isEmpty)
    let (more, broken) ← takePlainWords flow margin bound gap
    return (text ++ more, broken)

/-- Takes a plain scalar. Outside of brackets its lines start at column `margin` or further, and no
tab stands in front of that column. Tells also whether line breaks after it were taken. -/
def takePlain (flow : Bool) (margin : Nat) : Lexer (Text × Bool) := do
  let (text, broken) ← takePlainWords flow margin (← get).size {}
  return (textOf text, broken)

/-! ## Quoted scalars -/

def singleQuote : Char := '\x27'

def doubleQuote : Char := '\x22'

def backslash : Char := '\x5c'

inductive Escape where
  | char (c : Char)
  | code (digits : Nat)

def escape? : Char → Option Escape
  | '0' => some (.char '\x00')
  | 'a' => some (.char '\x07')
  | 'b' => some (.char '\x08')
  | 't' => some (.char '\t')
  | '\t' => some (.char '\t')
  | 'n' => some (.char '\n')
  | 'v' => some (.char '\x0b')
  | 'f' => some (.char '\x0c')
  | 'r' => some (.char '\r')
  | 'e' => some (.char '\x1b')
  | ' ' => some (.char ' ')
  | '\x22' => some (.char '\x22')
  | '\x27' => some (.char '\x27')
  | '\x5c' => some (.char '\x5c')
  | 'N' => some (.char nextLine)
  | '_' => some (.char (Char.ofNat 0xA0))
  | 'L' => some (.char (Char.ofNat 0x2028))
  | 'P' => some (.char (Char.ofNat 0x2029))
  | 'x' => some (.code 2)
  | 'u' => some (.code 4)
  | 'U' => some (.code 8)
  | _ => none

def hexDigit? (c : Char) : Option Nat :=
  if '0' ≤ c && c ≤ '9' then some (c.toNat - '0'.toNat)
  else if 'a' ≤ c && c ≤ 'f' then some (c.toNat - 'a'.toNat + 10)
  else if 'A' ≤ c && c ≤ 'F' then some (c.toNat - 'A'.toNat + 10)
  else none

def charOfHex? (digits : List Char) : Option Char :=
  match digits.mapM hexDigit? with
  | some values =>
    let code := values.foldl (fun n d => n * 16 + d) 0
    if code ≤ 0x10FFFF && !(0xD800 ≤ code && code ≤ 0xDFFF) then some (Char.ofNat code) else none
  | none => none

def takeEscape : Lexer Char := do
  match escape? (← peekAt 1) with
  | none => failure
  | some (.char c) =>
    advanceBy 2
    return c
  | some (.code digits) =>
    advanceBy 2
    need digits
    match charOfHex? ((← get).ahead.take digits) with
    | none => failure
    | some c =>
      advanceBy digits
      return c

/-- Takes a word of a quoted scalar, at most `bound` characters. Tells also whether it ended with a
line break that is escaped. -/
def takeQuotedWord (double : Bool) : (bound : Nat) → Lexer (List Char × Bool)
  | 0 => failure
  | bound + 1 => do
    let onward (c : Char) : Lexer (List Char × Bool) := do
      need 2
      let (word, escaped) ← takeQuotedWord double bound
      return (c :: word, escaped)
    let c ← peek
    let after ← peekAt 1
    if isGapOrEnd c || (double && c == doubleQuote) then return ([], false)
    else if !double && c == singleQuote then
      if after != singleQuote then return ([], false)
      advanceBy 2
      onward singleQuote
    else if double && c == backslash then
      if isBreak after then
        need 3
        advance
        let _ ← takeBreak
        return ([], true)
      onward (← takeEscape)
    else
      advance
      onward c

def takeQuotedWords (double : Bool) : (bound : Nat) → Lexer (List Char)
  | 0 => failure
  | bound + 1 => do
    need 4
    if (← get).isAnyMarker || (← peek) == endMark then failure
    let (word, escaped) ← takeQuotedWord double (← get).size
    need 1
    if (← peek) == (if double then doubleQuote else singleQuote) then return word
    let gap ← takeGap 0 escaped
    let between := if escaped then gap.breaks else gap.folded
    return word ++ between ++ (← takeQuotedWords double bound)

def takeQuoted (double : Bool) : Lexer Text := do
  advance
  let text ← takeQuotedWords double (← get).size
  advance
  return textOf text

end Lexer

end CountedLisp.Document
