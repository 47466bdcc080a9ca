import CountedLisp.Config
import CountedLisp.Library
import CountedLisp.Repl
import CountedLisp.Typing

/-!
# Running programs

A program run reads its sources, then the configuration, sets up an interpreter with the standard
library and the files to preload, and evaluates the sources in order. The first thing that goes
wrong ends it.
-/
namespace CountedLisp.Program

abbrev Files := Text → Except FileError Text

structure Source where
  name : Text
  text : Text
  deriving Repr, DecidableEq

structure Outcome where
  code : Nat
  out : Text
  err : Text
  deriving Repr, DecidableEq

def readFile (files : Files) (path : Text) : Except Error Text :=
  (files path).mapError (.file path)

def expressions : (position : Nat) → List Text → List Source
  | _, [] => []
  | position, arg :: rest =>
    ⟨"expression " ++ Text.ofNat position, arg⟩ :: expressions (position + 1) rest

def sourceFiles (files : Files) : List Text → Except Error (List Source)
  | [] => .ok []
  | path :: rest => do
    let text ← readFile files path
    return ⟨path, text⟩ :: (← sourceFiles files rest)

def readSources (files : Files) (asExpressions : Bool) (args : List Text) :
    Except Error (List Source) :=
  if asExpressions then .ok (expressions 1 args) else sourceFiles files args

/-- The configuration in a file, or the default one if there is no path; `debug` turns debugging on. -/
def loadConfig (files : Files) (path : Text) (debug : Bool) : Except Halt Config := do
  let c ←
    if path.isEmpty then .ok {}
    else
      match Config.parse (← (readFile files path).mapError .error) with
      | .error (.error e) => .error (.error (.within path e))
      | read => read
  return if debug then { c with debug := true } else c

def preload (files : Files) (fuel : Nat) : List Text → Run PUnit
  | [] => pure ⟨⟩
  | path :: rest => do
    match readFile files path with
    | .error e => Run.fail e
    | .ok text => Run.load fuel path text fun _ => pure ⟨⟩
    preload files fuel rest

def prepare (files : Files) (fuel : Nat) (c : Config) : Run PUnit := do
  Run.within "standard library" Library.load
  preload files fuel c.preload

def runSources (fuel : Nat) (print : Bool) : List Source → Run PUnit
  | [] => pure ⟨⟩
  | s :: rest => do
    Run.load fuel s.name s.text fun v => if print then Run.writeValue v else pure ⟨⟩
    runSources fuel print rest

def ending : Halt → Nat × Text
  | .error e => (1, e.message.line)
  | .exited code => ((code % 256).toNat, [])
  | .violation v => (2, Text.line ("panic: " ++ v.message?.getD []))
  | .outOfFuel => (2, Text.line "stack overflow")

def halted (h : Halt) : Outcome :=
  ⟨(ending h).1, [], (ending h).2⟩

def outcome : EStateM.Result Halt Interp α → Outcome
  | .ok _ s => ⟨0, s.out.toList.flatten, s.log.toList.flatten⟩
  | .error h s =>
    let (code, message) := ending h
    ⟨code, s.out.toList.flatten, s.log.toList.flatten ++ message⟩

def process (c : Config) (x : Run PUnit) : Outcome :=
  match Interp.start c.settings with
  | .error h => halted h
  | .ok s => outcome (x s)

structure Request where
  asExpressions : Bool := false
  print : Bool := false
  debug : Bool := false
  config : Text := []
  args : List Text := []
  deriving Repr, DecidableEq

def run (files : Files) (fuel : Nat) (r : Request) : Outcome :=
  match readSources files r.asExpressions r.args with
  | .error e => halted (.error e)
  | .ok sources =>
    match loadConfig files r.config r.debug with
    | .error h => halted h
    | .ok c =>
      process c do
        prepare files fuel c
        runSources fuel r.print sources

/-- Feeds what was typed to a session. There is no session left once the input has ended. -/
def obey (fuel : Nat) (session : Repl.Session) : List Typing.Event → Run (Option Repl.Session)
  | [] => return some session
  | .line t :: rest => do
    let (_, session) ← session.feed fuel t
    obey fuel session rest
  | .interrupt :: rest => obey fuel session.reset rest
  | .echo t :: rest => do
    Run.write t
    obey fuel session rest
  | .stop :: _ => return none

def converse (files : Files) (fuel : Nat) (r : Request) (input : Text) : Outcome :=
  match loadConfig files r.config r.debug with
  | .error h => halted h
  | .ok c =>
    process c do
      prepare files fuel c
      let _ ← obey fuel {} (Typing.events input)

end CountedLisp.Program
