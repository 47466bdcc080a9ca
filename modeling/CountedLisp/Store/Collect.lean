import CountedLisp.Store.Basic

/-!
# Collection

A collection frees the registered cells without references, pass after pass until a pass frees
nothing. A pass goes through the registry in order. Freeing a pair gives up its references to its
parts, which may leave them for the next pass; freeing a lambda does not, so its formals and body
stay. The freed cells leave the registry at the end.

If giving up a reference breaks the contract, the collection stops there: the cells freed so far
are marked but still listed.
-/
namespace CountedLisp.Store

def markFreed (a : Address) : StoreM PUnit :=
  modify (·.update a fun c => { c with freed := true })

/-- Frees one cell. Only its own references are given up. -/
def free (a : Address) : StoreM PUnit := do
  match (← get).node? (.ref a) with
  | some (.pair car cdr) =>
    release car
    release cdr
  | some (.string _) => modify (·.update a fun c => { c with node := .string [] })
  | _ => pure ⟨⟩
  markFreed a

def isIdle (s : Store) (a : Address) : Bool :=
  match s.cells[a]? with
  | some c => !c.freed && c.refs == 0
  | none => false

def visit (a : Address) : StoreM Bool := do
  if (← get).isIdle a then
    free a
    return true
  else
    return false

/-- What a pass has done with the cells it was given: it has kept some of them and freed the others.
-/
structure Pass (entries : List Address) where
  kept : List Address
  freed : Nat
  all : freed + kept.length = entries.length

namespace Pass

def none : Pass [] where
  kept := []
  freed := 0
  all := rfl

def free (a : Address) (p : Pass entries) : Pass (a :: entries) where
  kept := p.kept
  freed := p.freed + 1
  all := by rw [List.length_cons, ← p.all, Nat.add_right_comm]

def keep (a : Address) (p : Pass entries) : Pass (a :: entries) where
  kept := a :: p.kept
  freed := p.freed
  all := by rw [List.length_cons, List.length_cons, ← p.all, Nat.add_assoc]

end Pass

def sweep : (entries : List Address) → StoreM (Pass entries)
  | [] => pure .none
  | a :: rest => do
    if ← visit a then
      return (← sweep rest).free a
    else
      return (← sweep rest).keep a

/-- Passes over the given cells until one frees nothing. Returns the number of cells that are freed.
A cell that is freed is not looked at again, so every pass but the last leaves fewer cells to the
next one. -/
def sweeps (entries : List Address) : StoreM Nat := do
  let pass ← sweep entries
  if _ : pass.freed = 0 then return 0
  else return pass.freed + (← sweeps pass.kept)
termination_by entries.length
decreasing_by
  have := pass.all
  omega

def compact (s : Store) : Store :=
  { s with registry := s.registry.filter fun a => !s.isFreed (.ref a) }

def collect : StoreM Nat := do
  let total ← sweeps (← get).registry.toList
  if 0 < total then modify compact
  return total

structure Stats where
  live : Nat
  allocated : Nat
  counts : List (Kind × Nat)
  deriving Repr

def count (s : Store) (kind : Kind) : Nat :=
  s.registry.toList.countP fun a => (s.node? (.ref a)).map (·.kind) = some kind

/-- Summarises the registered cells. No freed cell may be among them, as after a collection that
was stopped. -/
def stats : StoreM Stats := fun s =>
  if s.registry.any fun a => s.isFreed (.ref a) then .error .noValue s
  else .ok ⟨s.live, s.allocated, Kind.all.map fun k => (k, s.count k)⟩ s

end CountedLisp.Store
