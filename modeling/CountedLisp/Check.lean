import CountedLisp.Interp.Start
import CountedLisp.Library

/-!
# Checking programs

Expressions are checked by what they evaluate to. A suite has sequences of expressions with the
expected results, each sequence for an interpreter of its own. A complaint is the text that reports
an expectation that was not met.
-/
namespace CountedLisp

/-- An interpreter with a reader and the standard library, with further settings. Exit requests are
only noted unless a setting says otherwise. -/
def Interp.startWithLibrary (settings : List Setting) : Except Halt Interp := do
  let s ← Interp.start ([.reader true, .exitHook (some .note)] ++ settings)
  match Library.load s with
  | .ok _ s => .ok s
  | .error h _ => .error h

def Run.assertTrue (fuel : Nat) (expr : Text) : Run (List Text) :=
  Run.thenCollect do
    match ← (Run.evalText fuel expr).attempt with
    | .error e => return ["assertion " ++ expr ++ ": " ++ e.message]
    | .ok v =>
      let s ← get
      if v = s.words.yes then return []
      else return ["assertion " ++ expr ++ ": evaluated to " ++ s.print v]

namespace Suite

structure Step where
  expr : Text
  expected : Text
  deriving Repr, DecidableEq

structure Sequence where
  name : Text
  steps : List Step
  deriving Repr, DecidableEq

def outcome (fuel : Nat) (expr : Text) : Run Text := do
  match ← (Run.evalText fuel expr).attempt with
  | .error e => return e.message
  | .ok v => return (← get).print v

/-- The complaints about the steps of a sequence, where `position` is that of the first; collects
after each step. -/
def runSteps (fuel : Nat) (label : Text) : (position : Nat) → List Step → Run (List Text)
  | _, [] => pure []
  | position, step :: rest => do
    let got ← outcome fuel step.expr
    let _ ← Run.collect
    let complaints ← runSteps fuel label (position + 1) rest
    if got = step.expected then return complaints
    else
      return (label ++ ": expr " ++ Text.ofNat position ++ ": expected result " ++ step.expected ++
        " (got " ++ got ++ ")") :: complaints

def run (fuel : Nat) : (index : Nat) → List Sequence → Except Halt (List Text)
  | _, [] => .ok []
  | index, seq :: rest => do
    let s ← Interp.startWithLibrary []
    let label := "test " ++ Text.ofNat index ++ " " ++ seq.name.quoted
    match runSteps fuel label 0 seq.steps s with
    | .error h _ => .error h
    | .ok complaints _ => return complaints ++ (← run fuel (index + 1) rest)

end Suite

end CountedLisp
