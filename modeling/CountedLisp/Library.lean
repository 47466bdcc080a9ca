import CountedLisp.Interp.Source

/-!
# The standard library

Functions written in the language itself. They are ordinary lambdas and can be bound anew.
-/
namespace CountedLisp.Library

structure Function where
  name : Text
  formals : Text
  body : Text
  deriving Repr, DecidableEq

def null : Function :=
  ⟨"null", "(x)", "(eq x ())"⟩

def equal : Function :=
  ⟨"equal", "(a b)",
    "(if (and (pair a) (pair b)) (and (equal (car a) (car b)) (equal (cdr a) (cdr b))) (eq a b))"⟩

def map : Function :=
  ⟨"map", "(f l)", "(if (null l) () (cons (f (car l)) (map f (cdr l))))"⟩

def member : Function :=
  ⟨"member", "(x l)", "(if (null l) false (if (equal x (car l)) true (member x (cdr l))))"⟩

/-- The library functions in the order in which they are defined. -/
def functions : List Function := [
  ⟨"not", "(x)", "(if x false true)"⟩,
  null,
  ⟨"<=", "(a b)", "(or (< a b) (= a b))"⟩,
  ⟨">", "(a b)", "(< b a)"⟩,
  ⟨">=", "(a b)", "(or (< b a) (= a b))"⟩,
  ⟨"abs", "(x)", "(if (< x 0) (- x) x)"⟩,
  equal,
  map,
  ⟨"length", "(l)", "(if (null l) 0 (+ 1 (length (cdr l))))"⟩,
  member]

def names : List Text :=
  functions.map (·.name)

def defineAll : List Function → Run PUnit
  | [] => pure ⟨⟩
  | f :: rest => do
    Run.defineFunction f.name f.formals f.body
    defineAll rest

def load : Run PUnit := do
  defineAll functions
  let _ ← Run.collect

end CountedLisp.Library
