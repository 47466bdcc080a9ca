import CountedLisp.Document.Block
import CountedLisp.Document.Name

/-!
# Scanning a document

Tokens are read one after another. Outside of brackets and braces, indentation opens and closes
blocks: a key or an item further right than the block around it opens a block at its column, and a
token further left closes the blocks in between.

A colon makes a key of what stands before it on its line. Only when it comes is it known that a
key token, and maybe a token that opens a mapping, belongs in front of tokens read before, so a scan
keeps in mind where a key may have started. At the column of its block a key must follow.

A reader that needs no more tokens does not notice that a scan cannot go on. It notices early,
though: a token is handed out once the two after it are read, and not while it is held back because
it may still turn out to start a key. What belongs in front of a token that is handed out comes last.
-/
namespace CountedLisp.Document

structure Candidate where
  /-- How many tokens stand before it. -/
  position : Nat
  required : Bool
  line : Nat
  column : Nat
  index : Nat
  deriving Repr

/-- A key stands on one line and is not longer than 1024 characters. -/
def Candidate.isPast (k : Candidate) (now : Cursor) : Bool :=
  k.line < now.line || k.index + 1024 < now.index

/-- What lies directly between two brackets or braces, or outside of all. -/
structure Level where
  /-- How many levels are around this one. -/
  depth : Nat := 0
  candidate : Option Candidate := none
  /-- The position of the last candidate, or else of the token that opened the level. -/
  position : Nat := 0
  deriving Repr

structure Scan where
  cursor : Cursor
  /-- The tokens that are handed out, the newest first, and their number. -/
  given : List Token := []
  givenCount : Nat := 0
  /-- The tokens that are read and not handed out. -/
  queue : List Token := []
  indent : Int := -1
  /-- The indentation of the blocks around the innermost one. -/
  outer : List Int := []
  /-- The innermost level and those around it. -/
  levels : List Level := [{}]
  /-- The positions of tokens that are held back, and the depth of the level whose candidate holds
  each of them. -/
  held : List (Nat × Nat) := []
  keyAllowed : Bool := true

def deepest : Nat := 10000

namespace Scan

def inFlow (s : Scan) : Bool :=
  match s.levels with
  | level :: _ => level.depth != 0
  | [] => false

def count (s : Scan) : Nat :=
  s.givenCount + s.queue.length

def push (s : Scan) (t : Token) : Scan :=
  { s with queue := s.queue ++ [t] }

def insert (s : Scan) (position : Nat) (t : Token) : Scan :=
  if position < s.givenCount then s.push t
  else { s with queue := s.queue.insertIdx (position - s.givenCount) t }

def withCandidate (s : Scan) (candidate : Option Candidate) : Scan :=
  match s.levels with
  | level :: around => { s with levels := { level with candidate } :: around }
  | [] => s

def letGo (s : Scan) (position : Nat) : Scan :=
  { s with held := s.held.filter (·.1 != position) }

/-- Gives up the innermost candidate, which must not be a required one. -/
def dropCandidate (s : Scan) : Option Scan :=
  match s.levels with
  | { candidate := some k, .. } :: _ =>
    if k.required then none else some ((s.withCandidate none).letGo k.position)
  | _ => some s

def addCandidate (s : Scan) : Option Scan :=
  if s.keyAllowed then
    let k : Candidate :=
      { position := s.count
        required := !s.inFlow && s.indent == s.cursor.column
        line := s.cursor.line
        column := s.cursor.column
        index := s.cursor.index }
    s.dropCandidate.map fun s =>
      match s.levels with
      | level :: around =>
        { s with
          levels := ⟨level.depth, some k, k.position⟩ :: around
          held := (k.position, level.depth) :: s.held }
      | [] => s
  else some s

def closeBlocks (column indent : Int) : List Int → Int × List Int × List Token
  | [] => (indent, [], [])
  | around :: outer =>
    if column < indent then
      let (indent, outer, ends) := closeBlocks column around outer
      (indent, outer, .blockEnd :: ends)
    else (indent, around :: outer, [])

def dedent (s : Scan) (column : Int) : Scan :=
  if s.inFlow then s
  else
    let (indent, outer, ends) := closeBlocks column s.indent s.outer
    { s with indent, outer, queue := s.queue ++ ends }

/-- Opens a block at a column that is further right than the innermost one. The token that says so
comes at the given position. -/
def openBlock (s : Scan) (column position : Nat) (t : Token) : Option Scan :=
  if s.inFlow || (column : Int) ≤ s.indent then some s
  else if deepest ≤ s.outer.length then none
  else some ({ s with indent := column, outer := s.indent :: s.outer }.insert position t)

def isHeld (s : Scan) (position : Nat) : Bool :=
  let level? := (s.held.lookup position).bind fun depth => s.levels.find? (·.depth == depth)
  match level?.bind (·.candidate) with
  | some k => k.required || !k.isPast s.cursor
  | none => false

def handOut : (bound : Nat) → Scan → Scan
  | 0, s => s
  | bound + 1, s =>
    match s.queue with
    | t :: next :: after :: more =>
      if s.isHeld s.givenCount then s
      else
        handOut bound { s with
          given := t :: s.given
          givenCount := s.givenCount + 1
          queue := next :: after :: more }
    | _ => s

end Scan

abbrev Scanner := StateT Scan Option

namespace Scanner

def lex (l : Lexer α) : Scanner α := fun s =>
  (l s.cursor).map fun (a, cursor) => (a, { s with cursor })

def update (f : Scan → Option Scan) : Scanner PUnit := fun s =>
  (f s).map fun s => (⟨⟩, s)

def allowKey (allowed : Bool) : Scanner PUnit :=
  modify fun s => { s with keyAllowed := allowed }

def emit (t : Token) : Scanner PUnit :=
  modify fun s => s.push t

def take (width : Nat) (t : Token) : Scanner PUnit := do
  lex (Lexer.advanceBy width)
  emit t

/-- Goes on to the next token, over blanks, comments and line breaks, at most `bound` lines. Tabs do
not indent. -/
def skipToToken : (bound : Nat) → Scanner PUnit
  | 0 => return ⟨⟩
  | bound + 1 => do
    let s ← get
    lex do
      Lexer.need 1
      let c ← get
      if c.column == 0 && c.marked then Lexer.advance
      let tabs := s.inFlow || !s.keyAllowed
      Lexer.skipWhile fun c => c == ' ' || (tabs && c == '\t')
      if (← Lexer.peek) == '#' then Lexer.skipComments c.size
    if isBreak (← lex Lexer.peek) then
      let _ ← lex Lexer.takeBreak
      if !s.inFlow then allowKey true
      skipToToken bound

def takeLine (l : Lexer Token) : Scanner PUnit := do
  modify (·.dedent (-1))
  update Scan.dropCandidate
  allowKey false
  emit (← lex l)

def takeOpen (t : Token) : Scanner PUnit := do
  let position := (← get).count
  update Scan.addCandidate
  let depth := ((← get).levels.head?.map (·.depth)).getD 0 + 1
  if deepest < depth then failure
  modify fun s => { s with levels := { depth, position } :: s.levels }
  allowKey true
  take 1 t

def takeClose (t : Token) : Scanner PUnit := do
  update Scan.dropCandidate
  modify fun s =>
    match s.levels with
    | level :: around :: more => { s with levels := around :: more }.letGo level.position
    | _ => s
  allowKey false
  take 1 t

/-- Opens a block here unless the innermost one is as far right. Only where a key may start, a block
may. -/
def openHere (start : Token) : Scanner PUnit := do
  let s ← get
  if !s.inFlow && !s.keyAllowed then failure
  update (·.openBlock s.cursor.column s.count start)

def takeBlockMark (start t : Token) (allowed : Bool) : Scanner PUnit := do
  openHere start
  update Scan.dropCandidate
  allowKey allowed
  take 1 t

def takeValue : Scanner PUnit := do
  let s ← get
  match (s.levels.head?).bind (·.candidate) with
  | some k =>
    if k.isPast s.cursor then
      if k.required then failure
      modify (·.withCandidate none)
      openHere .mappingStart
      allowKey (!s.inFlow)
    else
      modify (·.insert k.position .key)
      update (·.openBlock k.column k.position .mappingStart)
      modify fun s => (s.withCandidate none).letGo k.position
      allowKey false
  | none =>
    openHere .mappingStart
    allowKey (!s.inFlow)
  take 1 .value

def takeNamed (l : Lexer Token) : Scanner PUnit := do
  update Scan.addCandidate
  allowKey false
  emit (← lex l)

def takePlain : Scanner PUnit := do
  update Scan.addCandidate
  let s ← get
  let (text, broken) ← lex (Lexer.takePlain s.inFlow (s.indent + 1).toNat)
  allowKey broken
  emit (.scalar false text)

def takeBlock (literal : Bool) : Scanner PUnit := do
  update Scan.dropCandidate
  allowKey true
  emit (.scalar true (← lex (Lexer.takeBlock literal (← get).indent)))

def startsPlain (flow : Bool) (c after : Char) : Bool :=
  let indicators := "-?:,[]\x7b\x7d#&*!|>%@\x22\x27\x60".toList
  (!isGapOrEnd c && !indicators.contains c) || (c == '-' && !isBlank after) ||
    (!flow && (c == '?' || c == ':') && !isGapOrEnd after)

def takeToken : Scanner PUnit := do
  let flow := (← get).inFlow
  let c ← lex Lexer.peek
  let after ← lex (Lexer.peekAt 1)
  let alone := isGapOrEnd after
  if c == '[' then takeOpen .openList
  else if c == '\x7b' then takeOpen .openMapping
  else if c == ']' then takeClose .closeList
  else if c == '\x7d' then takeClose .closeMapping
  else if c == ',' then
    update Scan.dropCandidate
    allowKey true
    take 1 .comma
  else if c == '-' && alone then takeBlockMark .listStart .item true
  else if c == '?' && (flow || alone) then takeBlockMark .mappingStart .key (!flow)
  else if c == ':' && (flow || alone) then takeValue
  else if c == '*' then takeNamed (.alias <$> Lexer.takeName)
  else if c == '&' then takeNamed (.anchor <$> Lexer.takeName)
  else if c == '!' then takeNamed Lexer.takeTag
  else if c == '|' && !flow then takeBlock true
  else if c == '>' && !flow then takeBlock false
  else if c == Lexer.singleQuote then takeNamed (.scalar true <$> Lexer.takeQuoted false)
  else if c == Lexer.doubleQuote then takeNamed (.scalar true <$> Lexer.takeQuoted true)
  else if startsPlain flow c after then takePlain
  else failure

/-- Reads the next token, and a comment after it on its line unless it is a dash. -/
def step : Scanner PUnit := do
  skipToToken (← get).cursor.size
  modify fun s => s.dedent s.cursor.column
  lex (Lexer.need 4)
  let c := (← get).cursor
  if c.charAt 0 == endMark then takeLine (pure .streamEnd)
  else if c.column == 0 && c.charAt 0 == '%' then takeLine Lexer.takeDirective
  else if c.isMarker '-' then takeLine (do Lexer.advanceBy 3; return .documentStart)
  else if c.isMarker '.' then takeLine (do Lexer.advanceBy 3; return .documentEnd)
  else
    takeToken
    if (← get).queue.getLast? != some .item then lex Lexer.skipLineComment

end Scanner

/-- Scans to the end, in at most `bound` steps. Where that fails, only the tokens that were handed
out before can be seen. -/
def Scan.run : (bound : Nat) → Scan → List Token
  | 0, s => s.given.reverse
  | bound + 1, s =>
    match Scanner.step s with
    | none => s.given.reverse
    | some (_, s) =>
      if s.queue.getLast? == some .streamEnd then s.given.reverse ++ s.queue
      else run bound (s.handOut s.queue.length)

def tokens (t : Text) : List Token :=
  let cursor := Cursor.start t
  Scan.run (cursor.size + 1) { cursor }

end CountedLisp.Document
