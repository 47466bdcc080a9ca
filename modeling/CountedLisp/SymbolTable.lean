import CountedLisp.Dict
import CountedLisp.Text.Quoted

/-!
# Symbol tables

A table numbers the names it has accepted 1, 2, 3, ... in order of first acceptance. Names are
never removed, so a number keeps its name. The empty name is refused, and so is a name longer than
the table's limit.
-/
namespace CountedLisp

inductive SymbolError where
  | empty
  | tooLong (name : Text) (limit : Nat)
  deriving Repr, DecidableEq

def SymbolError.message : SymbolError → Text
  | .empty => "empty symbol"
  | .tooLong name limit =>
    "symbol too long: " ++ name.quoted ++ " has length " ++ Text.ofNat name.length ++
      " (maximum " ++ Text.ofNat limit ++ ")"

/-- A limit of zero bounds nothing. The names stand in the order of their numbers, and the index has
the number of each name. -/
structure SymbolTable where
  limit : Nat
  names : Array Text := #[]
  index : Dict Text Nat := .empty
  deriving Repr, DecidableEq

namespace SymbolTable

def defaultLimit : Nat := 30

/-- A table without names. A limit that is not positive bounds nothing. -/
def ofLimit (limit : Int) : SymbolTable :=
  { limit := limit.toNat }

def refusal? (limit : Nat) (name : Text) : Option SymbolError :=
  if name.isEmpty then some .empty
  else if 0 < limit && limit < name.length then some (.tooLong name limit)
  else none

def size (t : SymbolTable) : Nat :=
  t.names.size

def find? (t : SymbolTable) (name : Text) : Option Nat :=
  t.index.find? name

def name? (t : SymbolTable) : Nat → Option Text
  | 0 => none
  | id + 1 => t.names[id]?

def describe (t : SymbolTable) (id : Nat) : Text :=
  (t.name? id).getD ("#<SYMBOL " ++ Text.hex id ++ ">")

def accept (t : SymbolTable) (name : Text) : SymbolTable :=
  let names := t.names.push name
  { t with names, index := t.index.insert name names.size }

/-- The number of a name, which is added to the table if it is new and acceptable. -/
def intern (t : SymbolTable) (name : Text) : Except SymbolError (Nat × SymbolTable) :=
  match refusal? t.limit name with
  | some e => .error e
  | none =>
    match t.find? name with
    | some id => .ok (id, t)
    | none => .ok (t.size + 1, t.accept name)

end SymbolTable

end CountedLisp
