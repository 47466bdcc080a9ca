import CountedLisp.Interp.Source
import CountedLisp.Text.Utf8

/-!
# The line session

A session is fed lines. A line that leaves an expression unfinished is kept, and the next line
continues it. A complete expression is evaluated and its result written; a text that starts with a
colon is a command. Complaints go to the log.
-/
namespace CountedLisp.Repl

/-- What a session wants next: a new expression, or the continuation of a text. -/
structure Session where
  pending : Text := []
  deriving Repr, DecidableEq

def Session.reset (_ : Session) : Session :=
  {}

def envLines (s : Interp) : List Text :=
  s.env.toList.map fun (k, v) => Text.line (s.print k ++ " = " ++ s.print v)

def statsLines (st : Store.Stats) : List Text :=
  Text.line ("live " ++ Text.ofNat st.live ++ " allocated " ++ Text.ofNat st.allocated) ::
    st.counts.map fun (kind, n) => Text.line ("  " ++ kind.name.padRight 8 ++ " " ++ Text.ofNat n)

def helpText : Text :=
  ":env   list global bindings\n:heap  show heap statistics\n:help  show this message\n"

def command (t : Text) : Run PUnit := do
  if t = Text.ofString ":env" then
    Run.write (envLines (← get)).flatten
  else if t = Text.ofString ":heap" then
    let st ← Run.onStore Store.stats
    Run.write (statsLines st).flatten
  else if t = Text.ofString ":help" then
    Run.write helpText
  else
    Run.log (Text.line ("unknown command " ++ t))

def report (e : Error) : Run PUnit := do
  Run.log (Text.line e.message)
  let s ← get
  match e.failure?.bind (·.trace) with
  | some stack => if s.debug then Run.log (s.traceText stack)
  | none => pure ⟨⟩

def evaluate (fuel : Nat) (expr : Value) : Run PUnit := do
  match ← (Run.eval fuel expr).attempt with
  | .error e => report e
  | .ok v =>
    let s ← get
    Run.write (Text.line (if s.debug then s.store.inspect v else s.print v))

/-- Reads and evaluates a text. Returns whether the text ends inside an expression, and the session
that follows, in which such a text is pending. -/
def enter (fuel : Nat) (t : Text) : Run (Bool × Session) := do
  if !(← get).hasReader then Run.violate .noValue
  match ← Run.read t with
  | (.error fault, _) =>
    if fault.wantsMore then return (true, { pending := t })
    else
      Run.log (Text.line (Fault.unreadable fault).message)
      return (false, {})
  | (.ok expr, rest) =>
    let s ← get
    if s.debug then Run.log (Text.line ("Parsed expression: " ++ s.print expr))
    if rest.skipSpace.isEmpty then
      evaluate fuel expr
      return (false, {})
    else
      Run.log (Text.line ("Trailing text " ++ rest.skipSpace.quoted))
      return (false, {})

def Session.complete (session : Session) (line : Text) : Text :=
  (if session.pending.isEmpty then line else session.pending.line ++ line).skipSpace

/-- Processes a line. Returns whether it ends inside an expression, and the session that follows. -/
def Session.feed (session : Session) (fuel : Nat) (line : Text) : Run (Bool × Session) := do
  match session.complete line with
  | [] => return (false, {})
  | Byte.colon :: rest =>
    command (Text.trimBlanks (Byte.colon :: rest))
    return (false, {})
  | t => Run.thenCollect (enter fuel t)

end CountedLisp.Repl
