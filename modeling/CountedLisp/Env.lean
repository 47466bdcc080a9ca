import CountedLisp.Store.Basic

/-!
# Environments

An environment binds symbols to values. Its bindings stand in a search tree ordered by the bytes of
the symbols' names, and are counted as they are made; the tree is never rebalanced and bindings are
never removed. Interned symbols with one name are one value, so a name that comes with two values
breaks the contract.

A binding counts a reference to its value.
-/
namespace CountedLisp

inductive Env.Tree where
  | leaf
  | node (left : Tree) (key : Value) (name : Text) (value : Value) (right : Tree)
  deriving Repr, Inhabited

/-- The bindings, and how many have been made. -/
structure Env where
  root : Env.Tree := .leaf
  count : Nat := 0
  deriving Repr, Inhabited

structure Scope where
  env : Env
  store : Store

abbrev ScopeM := EStateM Violation Scope

namespace Env.Tree

def depth : Tree → Nat
  | leaf => 0
  | node l _ _ _ r => max l.depth r.depth + 1

def toList : Tree → List (Value × Value)
  | leaf => []
  | node l k _ v r => l.toList ++ (k, v) :: r.toList

/-- Visits the bindings in the order of their names until a visit asks to stop. Tells whether none
did. -/
def walk {m : Type → Type} [Monad m] (visit : Value → Value → m Bool) : Tree → m Bool
  | leaf => pure true
  | node l k _ v r => do
    if ← walk visit l then
      if ← visit k v then walk visit r else pure false
    else pure false

def find? (key : Value) (name : Text) : Tree → Except Violation (Option Value)
  | leaf => .ok none
  | node l k n v r =>
    if key = k then .ok (some v)
    else if name = n then .error (.sharedName name)
    else if name < n then find? key name l
    else find? key name r

/-- Binds a key with the given name, in place of its old binding if it has one. -/
def insert (key : Value) (name : Text) (value : Value) : Tree → Tree
  | leaf => node leaf key name value leaf
  | node l k n v r =>
    if key = k then node l k n value r
    else if name < n then node (insert key name value l) k n v r
    else node l k n v (insert key name value r)

end Env.Tree

namespace Env

def size (e : Env) : Nat :=
  e.count

def depth (e : Env) : Nat :=
  e.root.depth

def toList (e : Env) : List (Value × Value) :=
  e.root.toList

def walk {m : Type → Type} [Monad m] (visit : Value → Value → m Bool) (e : Env) : m Bool :=
  e.root.walk visit

def find? (key : Value) (name : Text) (e : Env) : Except Violation (Option Value) :=
  e.root.find? key name

def create (key : Value) (name : Text) (e : Env) : Env :=
  { root := e.root.insert key name .nil, count := e.count + 1 }

def assign (key : Value) (name : Text) (value : Value) (e : Env) : Env :=
  { e with root := e.root.insert key name value }

end Env

/-- The text by which a value is compared with the keys of an environment. -/
def Store.keyName (s : Store) (v : Value) : Text :=
  match s.node? v with
  | some (.symbol _ name) => name
  | some (.string t) => t
  | _ => []

namespace Scope

def get? (sc : Scope) (key : Value) : Except Violation (Option Value) :=
  match key, sc.env.root with
  | .nil, .node .. => .error .noValue
  | _, _ => sc.env.find? key (sc.store.keyName key)

def onStore (x : StoreM α) : ScopeM α := fun sc =>
  match x sc.store with
  | .ok a store => .ok a { sc with store }
  | .error v store => .error v { sc with store }

/-- Binds a symbol to a value. The value is retained before the old one is released, in case they
are the same; a new binding is there, empty, before that. -/
def put (key value : Value) : ScopeM PUnit := fun sc =>
  match sc.store.node? key with
  | some (.symbol _ name) =>
    match sc.env.find? key name with
    | .error v => .error v sc
    | .ok old =>
      let place : ScopeM PUnit := do
        if old.isNone then modify fun sc => { sc with env := sc.env.create key name }
        onStore (Store.retain value)
        onStore (Store.release (old.getD .nil))
        modify fun sc => { sc with env := sc.env.assign key name value }
      place sc
  | _ => .error (.keyNotSymbol (sc.store.typeName key)) sc

end Scope

end CountedLisp
