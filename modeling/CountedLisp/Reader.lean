import CountedLisp.Form
import CountedLisp.Number.Literal
import CountedLisp.SymbolTable

/-!
# The reader

The reader takes one form off the front of a text. White space may stand before any token. A list is
written in parentheses, a string between double quotes without escapes, and a number as its literal.
Anything else is a symbol: the longest run of bytes that are neither white space nor one of
`( ) " ' .`.

If it cannot read a form the reader says why, how far it came, and which forms inside the unfinished
one it had completed.
-/
namespace CountedLisp

inductive Construct where
  | expression | list | string
  deriving Repr, DecidableEq

def Construct.name : Construct → Text
  | expression => "expression"
  | list => "list"
  | string => "string"

inductive ReadFault where
  | endOfInput (inside : Construct)
  | badNumber (token : Text)
  | badSymbol (token : Text) (error : SymbolError)
  | noParse (rest : Text)
  deriving Repr, DecidableEq

def ReadFault.wantsMore : ReadFault → Bool
  | endOfInput _ => true
  | _ => false

def ReadFault.detail : ReadFault → Text
  | endOfInput inside => "unexpected end of input in " ++ inside.name
  | badNumber token => "bad number " ++ token
  | badSymbol token _ => "bad symbol " ++ token
  | noParse rest => "no parse for remaining input: " ++ rest.quotedStart

/-- The outcome of reading: a result and the unread text, or the forms completed before the fault,
the fault, and the unread text. -/
inductive Reading (α : Type) where
  | done (result : α) (rest : Text)
  | stuck (completed : List Form) (fault : ReadFault) (rest : Text)
  deriving Repr

namespace Reader

def isSymbolByte (b : UInt8) : Bool :=
  !(Text.isSpace b || b == Byte.openParen || b == Byte.closeParen || b == Byte.doubleQuote ||
    b == Byte.singleQuote || b == Byte.dot)

/-- The text of a string up to its closing quote, and what follows the quote. -/
def scanString? (t : Text) : Option (Text × Text) :=
  match t.span (· != Byte.doubleQuote) with
  | (body, _ :: rest) => some (body, rest)
  | (_, []) => none

def readSymbol (limit : Nat) (t : Text) : Reading Form :=
  match t.span isSymbolByte with
  | ([], _) => .stuck [] (.noParse t) t
  | (token, rest) =>
    match SymbolTable.refusal? limit token with
    | some e => .stuck [] (.badSymbol token e) rest
    | none => .done (.symbol token) rest

def readNumber (token rest : Text) : Reading Form :=
  match Number.parse? token with
  | some x => .done (.number x) rest
  | none => .stuck [] (.badNumber token) rest

def readAtom (limit : Nat) (t : Text) : Reading Form :=
  match Number.scan? t with
  | some (_, rest) => readNumber (t.take (t.length - rest.length)) rest
  | none => readSymbol limit t

mutual

def formWithin (limit : Nat) : (bound : Nat) → Text → Reading Form
  | 0, t => .stuck [] (.endOfInput .expression) t
  | bound + 1, t =>
    match t.skipSpace with
    | [] => .stuck [] (.endOfInput .expression) []
    | Byte.openParen :: rest =>
      match itemsWithin limit bound rest with
      | .done items rest => .done (.list items) rest
      | .stuck completed fault rest => .stuck completed fault rest
    | Byte.doubleQuote :: rest =>
      match scanString? rest with
      | some (body, rest) => .done (.string body) rest
      | none => .stuck [] (.endOfInput .string) (Byte.doubleQuote :: rest)
    | t => readAtom limit t

def itemsWithin (limit : Nat) : (bound : Nat) → Text → Reading (List Form)
  | 0, t => .stuck [] (.endOfInput .list) t
  | bound + 1, t =>
    match t.skipSpace with
    | [] => .stuck [] (.endOfInput .list) []
    | Byte.closeParen :: rest => .done [] rest
    | t =>
      match formWithin limit bound t with
      | .stuck completed fault rest => .stuck completed fault rest
      | .done item rest =>
        match itemsWithin limit bound rest with
        | .done items rest => .done (item :: items) rest
        | .stuck completed fault rest => .stuck (item :: completed) fault rest

end

/-- Reads one form. Every two steps take a byte off the text, so the bound is never reached. -/
def read (limit : Nat) (t : Text) : Reading Form :=
  formWithin limit (2 * t.length + 2) t

def allWithin (limit : Nat) : (bound : Nat) → Text → List Form × Option (List Form × ReadFault)
  | 0, _ => ([], none)
  | bound + 1, t =>
    match t.skipSpace with
    | [] => ([], none)
    | t =>
      match read limit t with
      | .stuck completed fault _ => ([], some (completed, fault))
      | .done form rest =>
        let (forms, fault) := allWithin limit bound rest
        (form :: forms, fault)

/-- Reads all forms of a text. If it gets stuck, the forms completed inside the unfinished one come
with the fault. Every form takes a byte off the text, so the bound is never reached. -/
def readAll (limit : Nat) (t : Text) : List Form × Option (List Form × ReadFault) :=
  allWithin limit (t.length + 1) t

end Reader

end CountedLisp
