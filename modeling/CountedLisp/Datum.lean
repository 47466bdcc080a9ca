import CountedLisp.Number.Layout
import CountedLisp.Store.Basic

/-!
# What a value says

A datum is a value with its parts spelled out and its identity forgotten. `Store.datum` reads it off
the store, and a value is printed by printing its datum.
-/
namespace CountedLisp

inductive Datum where
  | nil
  | symbol (name : Text)
  | number (x : Float)
  | string (text : Text)
  | pair (car cdr : Datum)
  | builtin (name : Text)
  | lambda (formals body : Datum)
  deriving Repr, Inhabited

def Datum.place (inside : Bool) (t : Text) : Text :=
  if inside then " . " ++ t ++ ")" else t

/-- Writes a datum, or the rest of a list if `inside` is set. -/
def Datum.write : (inside : Bool) → Datum → Text
  | false, .nil => "()"
  | true, .nil => ")"
  | false, .pair car cdr => "(" ++ car.write false ++ cdr.write true
  | true, .pair car cdr => " " ++ car.write false ++ cdr.write true
  | inside, .symbol name => place inside name
  | inside, .number x => place inside (Number.text x)
  | inside, .string t => place inside ("\"" ++ t ++ "\"")
  | inside, .builtin name => place inside ("[builtin " ++ name ++ "]")
  | inside, .lambda formals body =>
    place inside ("(lambda " ++ formals.write false ++ " " ++ body.write false ++ ")")

def Datum.writeOnto : (inside : Bool) → Datum → Text → Text
  | false, .nil, after => "()" ++ after
  | true, .nil, after => ")" ++ after
  | false, .pair car cdr, after => "(" ++ car.writeOnto false (cdr.writeOnto true after)
  | true, .pair car cdr, after => " " ++ car.writeOnto false (cdr.writeOnto true after)
  | inside, .symbol name, after => place inside name ++ after
  | inside, .number x, after => place inside (Number.text x) ++ after
  | inside, .string t, after => place inside ("\"" ++ t ++ "\"") ++ after
  | inside, .builtin name, after => place inside ("[builtin " ++ name ++ "]") ++ after
  | false, .lambda formals body, after =>
    "(lambda " ++ formals.writeOnto false (" " ++ body.writeOnto false (")" ++ after))
  | true, .lambda formals body, after =>
    " . " ++ ("(lambda " ++
      formals.writeOnto false (" " ++ body.writeOnto false (")" ++ (")" ++ after))))

/-- The printed form of a datum. It is written from its end. -/
def Datum.text (d : Datum) : Text :=
  d.writeOnto false []

theorem Datum.writeOnto_eq (inside : Bool) (d : Datum) (after : Text) :
    d.writeOnto inside after = d.write inside ++ after := by
  induction d generalizing inside after <;> cases inside <;>
    simp_all [writeOnto, write, place, Text.ofString]

theorem Datum.text_eq_write (d : Datum) : d.text = d.write false := by
  simp [text, writeOnto_eq]

namespace Store

def datumWithin (s : Store) : (bound : Nat) → Value → Datum
  | _, .nil => .nil
  | 0, .ref _ => .nil
  | bound + 1, .ref a =>
    match s.node? (.ref a) with
    | none => .nil
    | some (.symbol _ name) => .symbol name
    | some (.number x) => .number x
    | some (.string t) => .string t
    | some (.pair car cdr) => .pair (datumWithin s bound car) (datumWithin s bound cdr)
    | some (.builtin b) => .builtin b.name
    | some (.lambda formals body) =>
      .lambda (datumWithin s bound formals) (datumWithin s bound body)

def datum (s : Store) (v : Value) : Datum :=
  s.datumWithin v.rank v

def print (s : Store) (v : Value) : Text :=
  (s.datum v).text

def inspectOnto (s : Store) : (bound : Nat) → Value → Text → Text
  | _, .nil, after => "[nil]" ++ after
  | 0, .ref _, after => "[nil]" ++ after
  | bound + 1, .ref a, after =>
    match s.cell? (.ref a) with
    | none => "[nil]" ++ after
    | some c =>
      let body : Text :=
        match c.node with
        | .pair car cdr =>
          "(" ++ inspectOnto s bound car (" . " ++ inspectOnto s bound cdr (")]" ++ after))
        | _ => s.print (.ref a) ++ ("]" ++ after)
      "[" ++ Text.hex c.id ++ " " ++ c.node.kind.name ++ " with " ++ Text.ofNat c.refs ++
        " refs: " ++ body

def inspect (s : Store) (v : Value) : Text :=
  s.inspectOnto v.rank v []

end Store

end CountedLisp
