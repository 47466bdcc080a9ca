import CountedLisp.Text.Basic

/-!
# Values

A value is the empty value or the address of a cell. What the cell holds is its `Node`. Two values
are identical when they have the same address; only the store knows what stands there.
-/
namespace CountedLisp

abbrev Address := Nat

inductive Value where
  | nil
  | ref (address : Address)
  deriving Repr, DecidableEq, Inhabited

/-- One more than the address, and zero for the empty value. A cell refers only to values of lesser
rank than its own, so the rank bounds every walk through a value. -/
def Value.rank : Value → Nat
  | .nil => 0
  | .ref a => a + 1

inductive Primitive where
  | quote | define | lambda | ifThen | and | or
  | cons | car | cdr | eq | list | append
  | add | sub | mul | div | pow | less | same
  | pair | apply | debug | exit
  deriving Repr, DecidableEq

namespace Primitive

/-- The name of an operation in its own messages, and the name it is bound to at the start. -/
def name : Primitive → Text
  | quote => "quote"
  | define => "define"
  | lambda => "lambda"
  | ifThen => "if"
  | and => "and"
  | or => "or"
  | cons => "cons"
  | car => "car"
  | cdr => "cdr"
  | eq => "eq"
  | list => "list"
  | append => "append"
  | add => "+"
  | sub => "-"
  | mul => "*"
  | div => "/"
  | pow => "^"
  | less => "<"
  | same => "="
  | pair => "pair"
  | apply => "apply"
  | debug => "debug"
  | exit => "exit"

/-- The operations that receive their arguments unevaluated, in the order they are bound. -/
def special : List Primitive :=
  [quote, define, lambda, ifThen, and, or]

def ordinary : List Primitive :=
  [cons, car, cdr, eq, list, append, add, sub, mul, div, pow, less, same, pair, apply, debug, exit]

def ofName? (name : Text) : Option Primitive :=
  (special ++ ordinary).find? (·.name = name)

end Primitive

/-- A built-in function: the name it is bound to, what it does, and whether its arguments are left
unevaluated. -/
structure Builtin where
  name : Text
  op : Primitive
  special : Bool
  deriving Repr, DecidableEq

/-- The contents of a cell. A symbol has its number in the symbol table and its name. -/
inductive Node where
  | symbol (id : Nat) (name : Text)
  | number (x : Float)
  | string (text : Text)
  | pair (car cdr : Value)
  | builtin (b : Builtin)
  | lambda (formals body : Value)
  deriving Repr, Inhabited

inductive Kind where
  | symbol | number | string | pair | builtin | lambda
  deriving Repr, DecidableEq

namespace Kind

def all : List Kind :=
  [symbol, number, string, pair, builtin, lambda]

def name : Kind → Text
  | symbol => "symbol"
  | number => "number"
  | string => "string"
  | pair => "pair"
  | builtin => "builtin"
  | lambda => "lambda"

/-- The name of the type with a given number. Zero and unknown numbers are invalid. -/
def nameOfCode : Nat → Text
  | 0 => "INVALID"
  | n + 1 => (all[n]?.map name).getD "INVALID"

end Kind

def Node.kind : Node → Kind
  | .symbol .. => .symbol
  | .number _ => .number
  | .string _ => .string
  | .pair .. => .pair
  | .builtin _ => .builtin
  | .lambda .. => .lambda

def Node.children : Node → List Value
  | .pair car cdr => [car, cdr]
  | .lambda formals body => [formals, body]
  | _ => []

end CountedLisp
