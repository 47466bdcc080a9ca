import CountedLisp.CommandLine

/-!
# The program

Reads files and typed lines, and writes what the library answers.
-/
namespace CountedLisp.Main

/-- Levels of nesting granted to every evaluation. -/
def fuel : Nat := 1000000000

def fileError : IO.Error → FileError
  | .inappropriateType _ code _ => if code = 21 then .isDirectory else .notDirectory
  | .permissionDenied .. => .denied
  | .invalidArgument .. => .nameTooLong
  | _ => .missing

def readFile (path : Text) : IO (Except FileError Text) := do
  if path.contains 0 then return .error .invalidName
  match String.fromUTF8? ⟨path.toArray⟩ with
  | none => return .error .missing
  | some name =>
    try return .ok (← IO.FS.readBinFile name).data.toList
    catch e => return .error (fileError e)

def readFiles : List Text → IO (List (Text × Except FileError Text))
  | [] => return []
  | path :: rest => do
    let more ← readFiles rest
    return (path, ← readFile path) :: more

def found (files : List (Text × Except FileError Text)) : Program.Files := fun path =>
  (files.lookup path).getD (.error .missing)

/-- The files that a request may need: its sources, its configuration, and what that preloads. -/
def filesFor (r : Program.Request) : IO Program.Files := do
  let named ← readFiles (r.config :: r.args)
  let wanted : List Text :=
    match Program.loadConfig (found named) r.config r.debug with
    | .ok c => c.preload
    | .error _ => []
  let preloaded ← readFiles wanted
  return found (named ++ preloaded)

def drain (s : Interp) : IO Interp := do
  let out ← IO.getStdout
  let err ← IO.getStderr
  out.write ⟨s.out.toList.flatten.toArray⟩
  err.write ⟨s.log.toList.flatten.toArray⟩
  out.flush
  return { s with out := #[], log := #[] }

def finish (o : Program.Outcome) : IO UInt32 := do
  (← IO.getStdout).write ⟨o.out.toArray⟩
  (← IO.getStderr).write ⟨o.err.toArray⟩
  return o.code.toUInt32

def finishHalted (s : Interp) (h : Halt) : IO UInt32 := do
  let s ← drain s
  finish (Program.outcome (.error h s : EStateM.Result Halt Interp PUnit))

/-- Feeds what is typed to a session until the input ends. -/
partial def converse (typing : Typing.State) (session : Repl.Session) (s : Interp) : IO UInt32 := do
  let typed ← (← IO.getStdin).getLine
  let (typing, events) := typing.type (Text.ofString typed)
  let events := if typed.isEmpty then typing.finish else events
  match Program.obey fuel session events s with
  | .ok (some session) s => converse typing session (← drain s)
  | .ok none s =>
    let _ ← drain s
    return 0
  | .error h s => finishHalted s h

def startConversation (files : Program.Files) (r : Program.Request) : IO UInt32 := do
  match Program.loadConfig files r.config r.debug with
  | .error h => finish (Program.halted h)
  | .ok c =>
    match Interp.start c.settings with
    | .error h => finishHalted {} h
    | .ok s =>
      match Program.prepare files fuel c s with
      | .ok _ s => converse {} {} (← drain s)
      | .error h s => finishHalted s h

end CountedLisp.Main

open CountedLisp in
def main (args : List String) : IO UInt32 := do
  match CommandLine.action (args.map Text.ofString) with
  | .answer o => Main.finish o
  | .run r => Main.finish (Program.run (← Main.filesFor r) Main.fuel r)
  | .converse r => Main.startConversation (← Main.filesFor r) r
