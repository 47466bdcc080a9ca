import CountedLisp.Interp.Eval

/-!
# Source texts

Reading makes the values of a form in the order in which the reader completes them. An evaluation of
a text reads exactly one form; a source may hold any number of them, and is evaluated form by form
with a collection after each.
-/
namespace CountedLisp.Run

def build : Form → Run Value
  | .nil => pure .nil
  | .symbol name => symbol name
  | .number x => number x
  | .string t => onStore (Store.alloc (.string t))
  | .pair car cdr => do
    let head ← build car
    let tail ← build cdr
    onStore (Store.cons head tail)

def buildAll : List Form → Run (List Value)
  | [] => pure []
  | f :: fs => do
    let v ← build f
    return v :: (← buildAll fs)

/-- Reads one form off the front of a text, and returns its value or the fault, with the unread
text. After a fault the values of the completed forms are left to the next collection. -/
def read (t : Text) : Run (Except ReadFault Value × Text) := do
  match Reader.read (← get).table.limit t with
  | .done form rest => return (.ok (← build form), rest)
  | .stuck completed fault rest =>
    let _ ← buildAll completed
    return (.error fault, rest)

/-- Reads all forms of a text, and returns their values with the fault that ended reading, if one
did. -/
def readAll (t : Text) : Run (List Value × Option ReadFault) := do
  let (forms, stuck) := Reader.readAll (← get).table.limit t
  let values ← buildAll forms
  match stuck with
  | none => return (values, none)
  | some (completed, fault) =>
    let _ ← buildAll completed
    return (values, some fault)

def needReader : Run PUnit := do
  if (← get).hasReader then pure ⟨⟩ else fail .noReader

def readText (t : Text) : Run Value := do
  needReader
  match ← read t with
  | (.error fault, _) => failWith (.unreadable fault)
  | (.ok v, rest) =>
    if rest.skipSpace.isEmpty then pure v else failWith (.trailing rest.skipSpace)

def evalText (fuel : Nat) (t : Text) : Run Value := do
  let v ← readText t
  eval fuel v

def defineFunction (name formals body : Text) : Run PUnit := do
  let f ← within (name ++ ": formals") (readText formals)
  let b ← within (name ++ ": body") (readText body)
  let v ← onStore (Store.lambda f b)
  setGlobal name v

def loadWithin (fuel : Nat) (emit : Value → Run PUnit) : (bound : Nat) → Text → Run PUnit
  | 0, _ => pure ⟨⟩
  | bound + 1, source =>
    match source.skipSpace with
    | [] => pure ⟨⟩
    | source => do
      match ← read source with
      | (.error fault, _) => failWith (.unreadable fault)
      | (.ok expr, rest) =>
        match ← (eval fuel expr).attempt with
        | .error e =>
          let _ ← collect
          fail e
        | .ok v =>
          emit v
          let _ ← collect
          loadWithin fuel emit bound rest

/-- Evaluates the forms of a source in order, with a collection after each. Every result is passed
to `emit` before the collection. The first error ends the evaluation and is reported with the name
of the source. -/
def load (fuel : Nat) (name source : Text) (emit : Value → Run PUnit) : Run PUnit := do
  needReader
  within name (loadWithin fuel emit (source.length + 1) source)

def writeValue (v : Value) : Run PUnit := do
  write (Text.line ((← get).print v))

end CountedLisp.Run
