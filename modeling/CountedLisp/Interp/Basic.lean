import CountedLisp.Datum
import CountedLisp.Env
import CountedLisp.Error
import CountedLisp.Store.Collect

/-!
# The interpreter's state

An interpreter owns a store, a global environment, a symbol table with one symbol value for each
accepted name, and the stack of calls in progress. It also keeps what it wrote: printed results, log
lines and exit codes.

Operations are functions of type `Run`. They end with a result or are halted: by an error of the
program, by a broken contract, by a request to exit, or by running out of fuel. The state reached is
known in every case.
-/
namespace CountedLisp

/-- What a request to exit does: it is noted down, or it ends the run. -/
inductive ExitPolicy where
  | note | stop
  deriving Repr, DecidableEq

structure Keywords where
  yes : Value := .nil
  no : Value := .nil
  quote : Value := .nil
  lambda : Value := .nil
  deriving Repr, DecidableEq

/-- The state of an interpreter. `symbols` has the symbol value of each accepted name by its
number. -/
structure Interp where
  store : Store := {}
  env : Env := {}
  table : SymbolTable := { limit := SymbolTable.defaultLimit }
  symbols : Dict Nat Value := .empty
  words : Keywords := {}
  stack : CallStack := []
  debug : Bool := false
  hasReader : Bool := false
  exitPolicy : ExitPolicy := .stop
  out : Array Text := #[]
  log : Array Text := #[]
  exits : Array Int := #[]

inductive Halt where
  | error (e : Error)
  | violation (v : Violation)
  | exited (code : Int)
  | outOfFuel
  deriving Repr, DecidableEq

abbrev Run := EStateM Halt Interp

namespace Run

def fail (e : Error) : Run α :=
  throw (.error e)

def failWith (f : Fault) : Run α :=
  fail (.ofFault f)

def violate (v : Violation) : Run α :=
  throw (.violation v)

def ofExcept : Except Violation α → Run α
  | .ok a => pure a
  | .error v => violate v

def onStore (x : StoreM α) : Run α := fun s =>
  match x s.store with
  | .ok a store => .ok a { s with store }
  | .error v store => .error (.violation v) { s with store }

def onScope (x : ScopeM α) : Run α := fun s =>
  match x ⟨s.env, s.store⟩ with
  | .ok a ⟨env, store⟩ => .ok a { s with env, store }
  | .error v ⟨env, store⟩ => .error (.violation v) { s with env, store }

def mapError (f : Error → Error) (x : Run α) : Run α := fun s =>
  match x s with
  | .error (.error e) s => .error (.error (f e)) s
  | r => r

def within (place : Text) (x : Run α) : Run α :=
  x.mapError (.within place)

def attempt (x : Run α) : Run (Except Error α) := fun s =>
  match x s with
  | .ok a s => .ok (.ok a) s
  | .error (.error e) s => .ok (.error e) s
  | .error h s => .error h s

end Run

namespace Interp

def scope (s : Interp) : Scope :=
  ⟨s.env, s.store⟩

def print (s : Interp) (v : Value) : Text :=
  s.store.print v

def frameText (s : Interp) (f : Frame) : Text :=
  if f.name.isEmpty then s.print f.callee else f.name

def traceLines (s : Interp) : CallStack → List Text
  | [] => []
  | f :: rest =>
    ("  height " ++ Text.ofNat rest.length ++ ": " ++ s.frameText f ++ "\n") :: s.traceLines rest

def traceText (s : Interp) (stack : CallStack) : Text :=
  "Stack Trace [" ++ Text.ofNat stack.length ++ " frames -- entrypoint last]:\n" ++
    (s.traceLines stack).flatten

end Interp

namespace Run

def write (t : Text) : Run PUnit :=
  modify fun s => { s with out := s.out.push t }

def log (t : Text) : Run PUnit :=
  modify fun s => { s with log := s.log.push t }

def debugLog (t : Interp → Text) : Run PUnit := do
  let s ← get
  if s.debug then log (t s).ensureLine

def exit (code : Int) : Run PUnit := do
  match (← get).exitPolicy with
  | .note => modify fun s => { s with exits := s.exits.push code }
  | .stop => throw (.exited code)

/-- The symbol value of a name, made if the name is new. Symbols keep a reference from the symbol
table. -/
def symbol (name : Text) : Run Value := do
  match (← get).table.intern name with
  | .error e => fail (.symbol e)
  | .ok (id, table) =>
    modify fun s => { s with table }
    match (← get).symbols.find? id with
    | some v => pure v
    | none =>
      let v ← onStore (Store.alloc (.symbol id name))
      onStore (Store.retain v)
      modify fun s => { s with symbols := s.symbols.insert id v }
      pure v

def bool (b : Bool) : Run Value := do
  let words := (← get).words
  pure (if b then words.yes else words.no)

def quote (v : Value) : Run Value := do
  let word := (← get).words.quote
  onStore (Store.list [word, v])

/-- Frees what nothing refers to. Values that are only held outside the interpreter are freed too,
so this is for the time between evaluations. -/
def collect : Run Nat := do
  let n ← onStore Store.collect
  debugLog fun s =>
    "collected " ++ Text.ofNat n ++ " values (" ++ Text.ofNat s.store.live ++ " live)"
  pure n

/-- Collects after an operation, even if that broke the contract. -/
def thenCollect (x : Run α) : Run α := fun s =>
  match x s with
  | .ok a s => (collect >>= fun _ => pure a) s
  | .error (.exited code) s => .error (.exited code) s
  | .error h s => (collect >>= fun _ => throw h) s

def lookup? (key : Value) : Run (Option Value) := do
  let sc := (← get).scope
  ofExcept (sc.get? key)

def bindSymbol (key value : Value) : Run PUnit :=
  onScope (Scope.put key value)

/-- The value bound to a name. The name is accepted as a symbol first. -/
def getGlobal (name : Text) : Run Value := do
  let key ← symbol name
  match ← lookup? key with
  | some v => pure v
  | none => failWith (.undefined name)

def setGlobal (name : Text) (value : Value) : Run PUnit := do
  let key ← symbol name
  bindSymbol key value

def pushFrame (f : Frame) : Run PUnit :=
  modify fun s => { s with stack := f :: s.stack }

def popFrame : Run Frame := fun s =>
  match s.stack with
  | [] => .error (.violation .emptyStack) s
  | f :: rest => .ok f { s with stack := rest }

/-- The call of a value: built-in functions are known by name. The empty value cannot be entered. -/
def frameOf (callee : Value) : Run Frame := do
  match (← get).store.node? callee with
  | none => violate .noValue
  | some (.builtin b) => pure ⟨b.name, callee⟩
  | some _ => pure ⟨[], callee⟩

end Run

end CountedLisp
