import CountedLisp.Text.Utf8

/-!
# Typed lines

What is typed is a sequence of keys. A character goes into the line in front of the cursor. Other keys
move the cursor, take characters out, end the line, give it up, or end the input. A key that is of no
use rings a bell. Some keys are told by several characters, the first of which is the escape character.
-/
namespace CountedLisp.Typing

inductive Event where
  | line (t : Text)
  | interrupt
  | echo (t : Text)
  | stop
  deriving Repr, DecidableEq

def bell : Event :=
  .echo [7]

inductive Key where
  | char (t : Text)
  | enter | interrupt | finish
  | left | right | start | last | leftWord | rightWord
  | delete | backspace | cutBefore | cutAfter | cutLeftWord | cutRightWord | paste | swap
  | clearScreen | useless | silent
  deriving Repr, DecidableEq

def Key.ofUnit : Text.Unit8 → Key
  | .stray _ => .char [0xEF, 0xBF, 0xBD]
  | .char code bytes =>
    match code with
    | 0 => .finish
    | 1 => .start
    | 2 => .left
    | 3 => .interrupt
    | 4 => .delete
    | 5 => .last
    | 6 => .right
    | 7 => .silent
    | 8 | 127 => .backspace
    | 9 | 14 | 16 | 18 | 19 | 26 => .useless
    | 10 | 13 => .enter
    | 11 => .cutAfter
    | 12 => .clearScreen
    | 20 => .swap
    | 21 => .cutBefore
    | 23 => .cutLeftWord
    | 25 => .paste
    | _ => .char bytes

/-- A line that is being typed: the characters in front of the cursor, the nearest first, those behind
it, and those that were cut out last. -/
structure Line where
  before : List Text := []
  after : List Text := []
  cut : List Text := []
  deriving Repr, DecidableEq

def isWordChar : Text → Bool
  | [b] => (Char.ofNat b.toNat).isAlphanum
  | _ => false

/-- Splits the characters in front of the cursor where the last word starts that is not the first of
the line. -/
def splitLeftWord? : List Text → Option (List Text × List Text)
  | c :: d :: rest =>
    if isWordChar c && !isWordChar d then some ([c], d :: rest)
    else (splitLeftWord? (d :: rest)).map fun (word, rest) => (c :: word, rest)
  | _ => none

def splitRightWord? : List Text → Option (List Text × List Text)
  | c :: d :: rest =>
    if !isWordChar c && isWordChar d then some ([c], d :: rest)
    else (splitRightWord? (d :: rest)).map fun (word, rest) => (c :: word, rest)
  | _ => none

namespace Line

def text (l : Line) : Text :=
  (l.before.reverse ++ l.after).flatten

def isEmpty (l : Line) : Bool :=
  l.before.isEmpty && l.after.isEmpty

def next (l : Line) : Line :=
  { cut := l.cut }

def left (l : Line) : Line :=
  match l.before with
  | c :: rest => { l with before := rest, after := c :: l.after }
  | [] => l

def right (l : Line) : Line :=
  match l.after with
  | c :: rest => { l with before := c :: l.before, after := rest }
  | [] => l

def start (l : Line) : Line :=
  { l with before := [], after := l.before.reverse ++ l.after }

def last (l : Line) : Line :=
  { l with before := l.after.reverse ++ l.before, after := [] }

def leftWord (l : Line) : Line :=
  match splitLeftWord? l.before with
  | some (word, rest) => { l with before := rest, after := word.reverse ++ l.after }
  | none => l.start

def rightWord (l : Line) : Line :=
  match splitRightWord? l.after with
  | some (word, rest) => { l with before := word.reverse ++ l.before, after := rest }
  | none => l.last

def cutBefore (l : Line) : Line :=
  if l.before.isEmpty then l else { before := [], after := l.after, cut := l.before.reverse }

def cutAfter (l : Line) : Line :=
  { l with after := [], cut := l.after }

/-- Cuts out the word on the left. In the first word everything is taken out. -/
def cutLeftWord (l : Line) : Line :=
  if l.before.isEmpty then l
  else
    match splitLeftWord? l.before with
    | some (word, rest) => { l with before := rest, cut := word.reverse }
    | none => l.next

/-- Cuts out the word on the right. The character in front of the next word stays. -/
def cutRightWord (l : Line) : Line :=
  let (gap, rest) := l.after.span (!isWordChar ·)
  match splitRightWord? rest with
  | some (word, rest) =>
    { l with after := word.drop (word.length - 1) ++ rest, cut := gap ++ word.dropLast }
  | none => if l.after.isEmpty then l else l.cutAfter

def paste (l : Line) : Line :=
  { l with before := l.cut.reverse ++ l.before }

/-- Swaps the characters around the cursor and moves past them. At an end of the line they are the two
next to it. -/
def swap (l : Line) : Line :=
  match l.before, l.after with
  | [], c :: d :: rest => { l with before := [c, d], after := rest }
  | c :: d :: rest, [] => { l with before := d :: c :: rest }
  | c :: before, d :: after => { l with before := c :: d :: before, after }
  | _, _ => l.last

def press (l : Line) : Key → Line × List Event
  | .char t => ({ l with before := t :: l.before }, [])
  | .enter => (l.next, [.line l.text])
  | .interrupt => (l.next, [.interrupt])
  | .finish => if l.isEmpty then (l, [.stop]) else (l.next, [.line l.text])
  | .left => (l.left, [])
  | .right => (l.right, [])
  | .start => (l.start, [])
  | .last => (l.last, [])
  | .leftWord => (l.leftWord, [])
  | .rightWord => (l.rightWord, [])
  | .delete =>
    match l.after with
    | c :: rest => ({ l with after := rest, cut := [c] }, [])
    | [] => (l, [if l.isEmpty then .stop else bell])
  | .backspace => if l.isEmpty then (l, [bell]) else ({ l with before := l.before.drop 1 }, [])
  | .cutBefore => (l.cutBefore, [])
  | .cutAfter => (l.cutAfter, [])
  | .cutLeftWord => (l.cutLeftWord, [])
  | .cutRightWord => (l.cutRightWord, [])
  | .paste => (l.paste, [])
  | .swap => (l.swap, [])
  | .clearScreen => (l, [.echo "\x1b[H"])
  | .useless => (l, [bell])
  | .silent => (l, [])

end Line

/-- How much of a key has been told: nothing, the escape character, or also a bracket or a letter with
digits behind it. -/
inductive Told where
  | none
  | escape
  | sequence (bracket : Bool) (digits : Text)
  deriving Repr, DecidableEq

structure State where
  line : Line := {}
  told : Told := .none
  deriving Repr, DecidableEq

namespace State

def isEscape (u : Text.Unit8) : Bool :=
  u.bytes = [27]

def escapedKey (u : Text.Unit8) : Key :=
  if u.bytes = Text.ofString "b" then .leftWord
  else if u.bytes = Text.ofString "f" then .rightWord
  else if u.bytes = Text.ofString "d" then .cutRightWord
  else if u.bytes = [127] then .cutLeftWord
  else Key.ofUnit u

def sequenceKey (bracket : Bool) (digits : Text) (u : Text.Unit8) : Key :=
  let named : List (String × Key) :=
    [("D", .left), ("C", .right), ("A", .useless), ("B", .useless), ("H", .start), ("F", .last)]
  match named.find? fun (name, _) => Text.ofString name = u.bytes with
  | some (_, key) => key
  | none =>
    if bracket && u.bytes = Text.ofString "~" && digits = Text.ofString "3" then .delete else .silent

def continuesSequence : Text.Unit8 → Bool
  | .char code _ => (48 ≤ code && code ≤ 57) || code == 59
  | .stray _ => false

def press (s : State) (key : Key) : State × List Event :=
  let (line, events) := s.line.press key
  ({ line }, events)

def take (s : State) (u : Text.Unit8) : State × List Event :=
  match s.told with
  | .none => if isEscape u then ({ s with told := .escape }, []) else s.press (Key.ofUnit u)
  | .escape =>
    if isEscape u then (s, [])
    else if u.bytes = Text.ofString "[" then ({ s with told := .sequence true [] }, [])
    else if u.bytes = Text.ofString "O" then ({ s with told := .sequence false [] }, [])
    else s.press (escapedKey u)
  | .sequence bracket digits =>
    if continuesSequence u then ({ s with told := .sequence bracket (digits ++ u.bytes) }, [])
    else s.press (sequenceKey bracket digits u)

def takeAll (s : State) : List Text.Unit8 → State × List Event
  | [] => (s, [])
  | u :: rest =>
    let (s, events) := s.take u
    let (s, more) := takeAll s rest
    (s, events ++ more)

def type (s : State) (t : Text) : State × List Event :=
  s.takeAll t.units

/-- The input ends. A line that has been started is ended first. -/
def finish (s : State) : List Event :=
  if s.line.isEmpty then [.stop] else [.line s.line.text, .stop]

end State

def events (input : Text) : List Event :=
  let (s, events) := ({} : State).type input
  events ++ s.finish

end CountedLisp.Typing
