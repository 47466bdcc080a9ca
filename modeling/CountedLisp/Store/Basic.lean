import CountedLisp.Violation

/-!
# The store

The store holds every cell that was ever made. A cell has an identity, its contents, a count of
the references held to it, and a mark once it has been freed. Contents stay readable after that,
except that a freed string is empty.

Cells are made with a count of zero and entered in the registry, which lists the cells that a
collection looks at. Making a pair or a lambda counts a reference to each of its parts.
-/
namespace CountedLisp

structure Cell where
  id : Nat
  node : Node
  refs : Nat := 0
  freed : Bool := false
  deriving Repr, Inhabited

/-- All cells by address, the addresses of the registered ones in order of identity, and the number
of identities given out. -/
structure Store where
  cells : Array Cell := #[]
  registry : Array Address := #[]
  allocated : Nat := 0
  deriving Repr, Inhabited

abbrev StoreM := EStateM Violation Store

namespace Store

def cell? (s : Store) : Value → Option Cell
  | .nil => none
  | .ref a => s.cells[a]?

def node? (s : Store) (v : Value) : Option Node :=
  (s.cell? v).map (·.node)

def typeName (s : Store) (v : Value) : Text :=
  match s.node? v with
  | none => "nil"
  | some n => n.kind.name

def isPair (s : Store) (v : Value) : Bool :=
  match s.node? v with
  | some (.pair ..) => true
  | _ => false

def isSymbol (s : Store) (v : Value) : Bool :=
  match s.node? v with
  | some (.symbol ..) => true
  | _ => false

def isSpecial (s : Store) (v : Value) : Bool :=
  match s.node? v with
  | some (.builtin b) => b.special
  | _ => false

def idOf (s : Store) (v : Value) : Nat :=
  ((s.cell? v).map (·.id)).getD 0

def isFreed (s : Store) (v : Value) : Bool :=
  ((s.cell? v).map (·.freed)).getD false

def live (s : Store) : Nat :=
  s.registry.size

def update (s : Store) (a : Address) (f : Cell → Cell) : Store :=
  { s with cells := s.cells.modify a f }

def alloc (node : Node) : StoreM Value := fun s =>
  let a := s.cells.size
  .ok (.ref a)
    { cells := s.cells.push { id := s.allocated + 1, node }
      registry := s.registry.push a
      allocated := s.allocated + 1 }

/-- Takes over a cell of another store as it is. It is not registered here. -/
def adopt (c : Cell) : StoreM Value := fun s =>
  .ok (.ref s.cells.size) { s with cells := s.cells.push c }

def retain : Value → StoreM PUnit
  | .nil => pure ⟨⟩
  | .ref a => fun s =>
    match s.cells[a]? with
    | none => .ok ⟨⟩ s
    | some c =>
      if c.freed then .error (.retainFreed c.node.kind c.id) s
      else .ok ⟨⟩ (s.update a fun c => { c with refs := c.refs + 1 })

def release : Value → StoreM PUnit
  | .nil => pure ⟨⟩
  | .ref a => fun s =>
    match s.cells[a]? with
    | none => .ok ⟨⟩ s
    | some c =>
      if c.refs = 0 then .error (.releaseUnreferenced c.node.kind c.id) s
      else .ok ⟨⟩ (s.update a fun c => { c with refs := c.refs - 1 })

def cons (head tail : Value) : StoreM Value := do
  retain head
  retain tail
  alloc (.pair head tail)

def lambda (formals body : Value) : StoreM Value := do
  retain formals
  retain body
  alloc (.lambda formals body)

/-- Puts values in front of a list, from the last one to the first. -/
def listOnto (tail : Value) : List Value → StoreM Value
  | [] => pure tail
  | v :: vs => do
    let rest ← listOnto tail vs
    cons v rest

def list (vs : List Value) : StoreM Value :=
  listOnto .nil vs

end Store

end CountedLisp
