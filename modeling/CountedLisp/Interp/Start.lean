import CountedLisp.Interp.Basic

/-!
# Starting an interpreter

An interpreter is made from settings, applied in order; the first one that is refused is the error.
Then the symbols it refers to itself, the number pi, the special operators and the ordinary built-in
functions are bound.
-/
namespace CountedLisp

/-- A choice made before an interpreter starts. A log writer or exit hook may be missing. -/
inductive Setting where
  | reader (present : Bool)
  | symbolLimit (n : Int)
  | logWriter (present : Bool)
  | exitHook (policy : Option ExitPolicy)
  | debug (on : Bool)
  deriving Repr, DecidableEq

/-- The length of the longest name that is bound at the start. -/
def shortestLimit : Nat := 6

def Interp.configure (s : Interp) : Setting → Except SettingError Interp
  | .reader present => .ok { s with hasReader := present }
  | .symbolLimit n =>
    if n < 0 then .error .negativeLimit
    else if 0 < n && n < shortestLimit then .error .limitTooShort
    else .ok { s with table := .ofLimit n }
  | .logWriter present => if present then .ok s else .error .noLogWriter
  | .exitHook (some policy) => .ok { s with exitPolicy := policy }
  | .exitHook none => .error .noExitHook
  | .debug on => .ok { s with debug := on }

namespace Run

def addBuiltin (special : Bool) (name : Text) (op : Primitive) : Run PUnit := do
  let key ← symbol name
  match ← lookup? key with
  | some _ => fail (.alreadyDefined name)
  | none =>
    let v ← onStore (Store.alloc (.builtin ⟨name, op, special⟩))
    bindSymbol key v

def addAll (special : Bool) : List (Text × Primitive) → Run PUnit
  | [] => pure ⟨⟩
  | (name, op) :: rest => do
    addBuiltin special name op
    addAll special rest

def defaults (special : Bool) : List (Text × Primitive) :=
  (if special then Primitive.special else Primitive.ordinary).map fun op => (op.name, op)

def addBuiltins (special : Bool) (defs : List (Text × Primitive)) : Run PUnit :=
  addAll special (if defs.isEmpty then defaults special else defs)

def pi : Float := 3.141592653589793

def boot : Run PUnit := do
  let yes ← symbol "true"
  let no ← symbol "false"
  let quote ← symbol "quote"
  let lambda ← symbol "lambda"
  modify fun s => { s with words := { yes, no, quote, lambda } }
  bindSymbol yes yes
  bindSymbol no no
  let x ← onStore (Store.alloc (.number pi))
  setGlobal "pi" x
  addBuiltins true []
  addBuiltins false []

end Run

def Interp.start (settings : List Setting) : Except Halt Interp :=
  match settings.foldlM Interp.configure ({} : Interp) with
  | .error e => .error (.error (.setting e))
  | .ok s =>
    match Run.boot s with
    | .ok _ s => .ok s
    | .error h _ => .error h

end CountedLisp
