import CountedLisp.Datum

/-!
# Forms

A form is what a source text can say: the empty list, a symbol, a number, a string, or a pair of
forms. Lists are chains of pairs.
-/
namespace CountedLisp

/-- An expression as it is read, before it has a place in the store. -/
inductive Form where
  | nil
  | symbol (name : Text)
  | number (x : Float)
  | string (text : Text)
  | pair (car cdr : Form)
  deriving Repr, Inhabited

namespace Form

def list (items : List Form) : Form :=
  items.foldr .pair .nil

def datum : Form → Datum
  | nil => .nil
  | symbol name => .symbol name
  | number x => .number x
  | string t => .string t
  | pair car cdr => .pair car.datum cdr.datum

end Form

end CountedLisp
