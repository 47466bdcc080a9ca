import CountedLisp.Interp.Basic
import CountedLisp.Number.Power
import CountedLisp.Store.Shape

/-!
# Evaluation

Symbols evaluate to what they are bound to, pairs are calls, and every other value evaluates to
itself. A call of a lambda substitutes the arguments for the formals, one after another, and
evaluates the resulting body; an argument that is a pair is quoted first. Substitution is not
hygienic: a symbol inside an earlier argument that names a later formal is replaced as well.

`Run.perform` takes fuel, one unit for each level of nesting. Everything an evaluation does in one
level is `Run.step`, which performs the tasks of the next level by its first argument.
-/
namespace CountedLisp

inductive Task where
  | eval (expr : Value)
  | call (callee args : Value)
  deriving Repr, DecidableEq

namespace Run

def arguments (op : Primitive) (args : Value) : Run (List Value) := do
  let s ← get
  match s.store.elements? args with
  | some vs => pure vs
  | none => failWith (.improperArguments op (s.print args))

def noArguments (op : Primitive) (args : Value) : Run PUnit := do
  match ← arguments op args with
  | [] => pure ⟨⟩
  | vs => failWith (.count op 0 vs.length)

def one (op : Primitive) (args : Value) : Run Value := do
  match ← arguments op args with
  | [a] => pure a
  | vs => failWith (.count op 1 vs.length)

def two (op : Primitive) (args : Value) : Run (Value × Value) := do
  match ← arguments op args with
  | [a, b] => pure (a, b)
  | vs => failWith (.count op 2 vs.length)

def three (op : Primitive) (args : Value) : Run (Value × Value × Value) := do
  match ← arguments op args with
  | [a, b, c] => pure (a, b, c)
  | vs => failWith (.count op 3 vs.length)

/-- The numbers among values, which must all be numbers; `position` is that of the first. -/
def numbersFrom (op : Primitive) : (position : Nat) → List Value → Run (List Float)
  | _, [] => pure []
  | position, v :: vs => do
    let s ← get
    match s.store.node? v with
    | some (.number x) => return x :: (← numbersFrom op (position + 1) vs)
    | _ => failWith (.notNumber op position (s.print v))

def numbers (op : Primitive) (args : Value) : Run (List Float) := do
  numbersFrom op 1 (← arguments op args)

def number (x : Float) : Run Value :=
  onStore (Store.alloc (.number x))

/-- Combines at least one number from left to right; a single one is changed by `single`. -/
def foldNumbers (op : Primitive) (single : Float → Float) (combine : Float → Float → Float)
    (args : Value) : Run Value := do
  match ← numbers op args with
  | [] => failWith (.noArguments op)
  | [x] => number (single x)
  | x :: xs => number (xs.foldl combine x)

def compareNumbers (op : Primitive) (test : Float → Float → Bool) (args : Value) : Run Value := do
  let _ ← two op args
  match ← numbers op args with
  | [x, y] => bool (test x y)
  | xs => failWith (.count op 2 xs.length)

/-- Whether two values are the same value or numbers of the same size. -/
def sameValue (s : Store) (a b : Value) : Bool :=
  a = b ||
    match s.node? a, s.node? b with
    | some (.number x), some (.number y) => x == y
    | _, _ => false

def evalAll (perform : Task → Run Value) : List Value → Run (List Value)
  | [] => pure []
  | e :: es => do
    let v ← perform (.eval e)
    return v :: (← evalAll perform es)

def evalEach (perform : Task → Run Value) (list : Value) : Run Value := do
  let (items, last) := (← get).store.spine list
  let values ← evalAll perform items
  if last = .nil then onStore (Store.list values)
  else failWith (.improperList ((← get).print list))

/-- Evaluates expressions until one gives `stop`, and tells which truth value was found: `stop`, or
`otherwise` if none gave it. -/
def evalUntil (perform : Task → Run Value) (stop otherwise : Value) : List Value → Run Value
  | [] => pure otherwise
  | e :: es => do
    if (← perform (.eval e)) = stop then pure stop else evalUntil perform stop otherwise es

/-- The integer part of a number. One that does not fit into 64 bits is taken for the least of those
that do. -/
def wholePart (x : Float) : Int :=
  if -9223372036854775808 ≤ x && x < 9223372036854775808 then x.toInt64.toInt
  else -9223372036854775808

def operate (perform : Task → Run Value) (op : Primitive) (args : Value) : Run Value := do
  match op with
  | .quote => one op args
  | .define =>
    let (name, expr) ← two op args
    if (← get).store.isSymbol name then
      let v ← perform (.eval expr)
      bindSymbol name v
      pure .nil
    else
      failWith (.notDefinable ((← get).print name))
  | .lambda =>
    let (formals, body) ← two op args
    onStore (Store.lambda formals body)
  | .ifThen =>
    let (test, yes, no) ← three op args
    let v ← perform (.eval test)
    let s ← get
    if v = s.words.yes then perform (.eval yes)
    else if v = s.words.no then perform (.eval no)
    else failWith (.condition (s.print v))
  | .and =>
    let exprs ← arguments op args
    let words := (← get).words
    evalUntil perform words.no words.yes exprs
  | .or =>
    let exprs ← arguments op args
    let words := (← get).words
    evalUntil perform words.yes words.no exprs
  | .cons =>
    let (head, tail) ← two op args
    onStore (Store.cons head tail)
  | .car =>
    let v ← one op args
    let s ← get
    match s.store.node? v with
    | some (.pair car _) => pure car
    | _ => failWith (.notPair op (s.print v))
  | .cdr =>
    let v ← one op args
    let s ← get
    match s.store.node? v with
    | some (.pair _ cdr) => pure cdr
    | _ => failWith (.notPair op (s.print v))
  | .eq =>
    let (a, b) ← two op args
    bool (sameValue (← get).store a b)
  | .list => pure args
  | .append =>
    let (front, back) ← two op args
    let s ← get
    match s.store.elements? front with
    | some vs => onStore (Store.listOnto back vs)
    | none => failWith (.firstNotList op (s.print front))
  | .add => number ((← numbers op args).foldl (· + ·) 0.0)
  | .mul => number ((← numbers op args).foldl (· * ·) 1.0)
  | .sub => foldNumbers op (fun x => -x) (· - ·) args
  | .div => foldNumbers op (fun x => 1.0 / x) (· / ·) args
  | .pow => foldNumbers op id Number.power args
  | .less => compareNumbers op (fun x y => x < y) args
  | .same => compareNumbers op (fun x y => x == y) args
  | .pair =>
    let v ← one op args
    bool ((← get).store.isPair v)
  | .apply =>
    let (callee, list) ← two op args
    let s ← get
    if (s.store.length list).2 then perform (.call callee list)
    else failWith (.secondNotList op (s.print list))
  | .debug =>
    noArguments op args
    modify fun s => { s with debug := !s.debug }
    let mode : Text := if (← get).debug then "on" else "off"
    log (Text.line ("debug mode " ++ mode))
    pure .nil
  | .exit =>
    match ← numbers op args with
    | [] => Run.exit 0
    | [x] => Run.exit (wholePart x)
    | xs => failWith (.tooManyArguments op xs.length)
    pure .nil

/-- Substitutes arguments for formals in a body, one after another. Pairs are quoted to keep them
from being evaluated as calls. -/
def substituteAll : List (Value × Value) → (body : Value) → Run Value
  | [], body => pure body
  | (formal, arg) :: rest, body => do
    let arg ← if (← get).store.isPair arg then Run.quote arg else pure arg
    let binder := (← get).words.lambda
    let body ← onStore (Store.substitute binder formal arg body)
    substituteAll rest body

def callLambda (perform : Task → Run Value) (formals body args : Value) : Run Value := do
  let s ← get
  match s.store.elements? formals with
  | none => failWith (.formalsNotList (s.print formals))
  | some names =>
    match names.find? fun v => !s.store.isSymbol v with
    | some v => failWith (.formalNotSymbol (s.print v))
    | none =>
      match s.store.elements? args with
      | none => failWith (.improperList (s.print args))
      | some vs =>
        if names.length = vs.length then
          perform (.eval (← substituteAll (names.zip vs) body))
        else failWith (.lambdaCount names.length vs.length)

/-- Gives a failure the calls in progress, unless it has some already. -/
def addTrace (stack : CallStack) : Error → Error
  | .failure ⟨fault, none⟩ => .failure ⟨fault, some stack⟩
  | e => e

/-- Performs a call: it is entered on the stack meanwhile, and left there only if the contract is
broken. An error gets the stack as it was at the innermost call that failed with it. -/
def inFrame (f : Frame) (x : Run Value) : Run Value := do
  pushFrame f
  let result ← x.attempt
  let stack := (← get).stack
  let _ ← popFrame
  match result with
  | .ok v => pure v
  | .error e => fail (addTrace stack e)

def call (perform : Task → Run Value) (callee args : Value) : Run Value := do
  let s ← get
  match s.store.node? callee with
  | none => failWith .emptyCallee
  | some (.builtin b) =>
    inFrame ⟨b.name, callee⟩ do
      debugLog fun s => "call " ++ s.print callee ++ " " ++ s.print args
      operate perform b.op args
  | some (.lambda formals body) =>
    inFrame ⟨[], callee⟩ do
      debugLog fun s => "call lambda " ++ s.print formals ++ " " ++ s.print args
      callLambda perform formals body args
  | some n => failWith (.notCallable n.kind.name (s.print callee))

/-- Evaluates a call expression. The arguments are evaluated unless the function takes them as they
are. -/
def evalCall (perform : Task → Run Value) (car cdr : Value) : Run Value := do
  let callee ← perform (.eval car)
  let s ← get
  match s.store.node? callee with
  | none => failWith .emptyCallee
  | some (.builtin b) =>
    if b.special then perform (.call callee cdr)
    else perform (.call callee (← evalEach perform cdr))
  | some (.lambda ..) => perform (.call callee (← evalEach perform cdr))
  | some n => failWith (.notCallable n.kind.name (s.print callee))

def evalExpr (perform : Task → Run Value) (expr : Value) : Run Value := do
  match (← get).store.node? expr with
  | some (.symbol _ name) =>
    match ← lookup? expr with
    | some v => pure v
    | none => failWith (.undefined name)
  | some (.pair car cdr) => evalCall perform car cdr
  | _ => pure expr

def step (perform : Task → Run Value) : Task → Run Value
  | .eval expr => evalExpr perform expr
  | .call callee args => call perform callee args

/-- Performs a task with fuel for so many levels of nesting. -/
def perform : (fuel : Nat) → Task → Run Value
  | 0, _ => throw .outOfFuel
  | fuel + 1, task => step (perform fuel) task

def eval (fuel : Nat) (expr : Value) : Run Value :=
  perform fuel (.eval expr)

def apply (fuel : Nat) (callee args : Value) : Run Value :=
  perform fuel (.call callee args)

end Run

end CountedLisp
