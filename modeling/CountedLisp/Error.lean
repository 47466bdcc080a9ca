import CountedLisp.Directory
import CountedLisp.Reader
import CountedLisp.Violation

/-!
# Errors

A fault says what is wrong with a program; with the calls that were in progress it is a failure. An
error is a failure or a reason outside the program, possibly with a note on where it arose. Each has
its wording in one place.
-/
namespace CountedLisp

inductive FaultKind where
  | internal | parse | undefined | notCallable | arity | type | truth
  deriving Repr, DecidableEq

namespace FaultKind

def all : List FaultKind :=
  [internal, parse, undefined, notCallable, arity, type, truth]

/-- The class with a given number. Unknown numbers are internal. -/
def ofCode : Int → FaultKind
  | .ofNat n => all[n]?.getD internal
  | .negSucc _ => internal

def name : FaultKind → Text
  | internal => "internal invariant violation"
  | parse => "parse error"
  | undefined => "undefined variable"
  | notCallable => "not callable"
  | arity => "arity mismatch"
  | type => "type mismatch"
  | truth => "invalid truth value"

end FaultKind

inductive Cause where
  | endOfInput
  | number (token : Text)
  | symbol (error : SymbolError)
  deriving Repr, DecidableEq

def Cause.message : Cause → Text
  | endOfInput => "unexpected EOF"
  | number token => "strconv.ParseFloat: parsing " ++ token.quoted ++ ": invalid syntax"
  | symbol e => e.message

/-- What is wrong with a program. Offending values are kept as they were printed. -/
inductive Fault where
  | unreadable (fault : ReadFault)
  | trailing (rest : Text)
  | undefined (name : Text)
  | emptyCallee
  | notCallable (typeName callee : Text)
  | improperList (args : Text)
  | improperArguments (op : Primitive) (args : Text)
  | count (op : Primitive) (expected got : Nat)
  | noArguments (op : Primitive)
  | tooManyArguments (op : Primitive) (got : Nat)
  | notNumber (op : Primitive) (position : Nat) (arg : Text)
  | notPair (op : Primitive) (arg : Text)
  | firstNotList (op : Primitive) (arg : Text)
  | secondNotList (op : Primitive) (arg : Text)
  | notDefinable (name : Text)
  | condition (value : Text)
  | formalsNotList (formals : Text)
  | formalNotSymbol (formal : Text)
  | lambdaCount (expected got : Nat)
  | raised (kind : FaultKind) (detail : Text) (cause : Option Cause)
  deriving Repr, DecidableEq

namespace Fault

def kind : Fault → FaultKind
  | unreadable _ | trailing _ => .parse
  | undefined _ => .undefined
  | emptyCallee | notCallable .. => .notCallable
  | improperList _ | improperArguments .. => .internal
  | count .. | noArguments _ | tooManyArguments .. | lambdaCount .. => .arity
  | notNumber .. | notPair .. | firstNotList .. | secondNotList .. | notDefinable _
  | formalsNotList _ | formalNotSymbol _ => .type
  | condition _ => .truth
  | raised kind .. => kind

def detail : Fault → Text
  | unreadable fault => fault.detail
  | trailing rest => "trailing text " ++ rest.quoted
  | undefined name => name
  | emptyCallee => "cannot call the empty value"
  | notCallable typeName callee => "cannot call " ++ typeName ++ ": " ++ callee
  | improperList args => "argument list is not a proper list: " ++ args
  | improperArguments op args => op.name ++ ": argument list is not a proper list: " ++ args
  | count op expected got =>
    op.name ++ ": expected " ++ Text.ofNat expected ++ " arguments (got " ++ Text.ofNat got ++ ")"
  | noArguments op => op.name ++ ": expected at least 1 argument (got 0)"
  | tooManyArguments op got =>
    op.name ++ ": expected at most 1 argument (got " ++ Text.ofNat got ++ ")"
  | notNumber op position arg =>
    op.name ++ ": argument " ++ Text.ofNat position ++ " is not a number: " ++ arg
  | notPair op arg => op.name ++ ": argument is not a pair: " ++ arg
  | firstNotList op arg => op.name ++ ": first argument is not a list: " ++ arg
  | secondNotList op arg => op.name ++ ": second argument is not a list: " ++ arg
  | notDefinable name => "define: cannot define non-symbol " ++ name
  | condition value => "if: condition is neither true nor false: " ++ value
  | formalsNotList formals => "lambda formals are not a list: " ++ formals
  | formalNotSymbol formal => "lambda formal is not a symbol: " ++ formal
  | lambdaCount expected got =>
    "lambda expects " ++ Text.ofNat expected ++ " arguments (got " ++ Text.ofNat got ++ ")"
  | raised _ detail _ => detail

def cause? : Fault → Option Cause
  | unreadable (.endOfInput _) => some .endOfInput
  | unreadable (.badNumber token) => some (.number token)
  | unreadable (.badSymbol _ e) => some (.symbol e)
  | raised _ _ cause => cause
  | _ => none

def message (f : Fault) : Text :=
  if f.detail.isEmpty then f.kind.name else f.kind.name ++ ": " ++ f.detail

end Fault

/-- A call in progress. Built-in functions are known by name. -/
structure Frame where
  name : Text
  callee : Value
  deriving Repr, DecidableEq, Inhabited

/-- Calls in progress, the most recent first. -/
abbrev CallStack := List Frame

/-- A fault, with the calls that were in progress if a call failed with it. -/
structure Failure where
  fault : Fault
  trace : Option CallStack := none
  deriving Repr, DecidableEq

inductive SettingError where
  | noLogWriter
  | noExitHook
  | negativeLimit
  | limitTooShort
  deriving Repr, DecidableEq

def SettingError.message : SettingError → Text
  | noLogWriter => "nil stderr writer"
  | noExitHook => "nil exit function"
  | negativeLimit => "negative symbol length"
  | limitTooShort => "symbol length too short for builtin names"

inductive Error where
  | failure (f : Failure)
  | symbol (e : SymbolError)
  | noReader
  | alreadyDefined (name : Text)
  | setting (e : SettingError)
  | file (path : Text) (e : FileError)
  | malformedConfig
  | negativeLength (n : Int)
  | within (place : Text) (e : Error)
  deriving Repr, DecidableEq

namespace Error

/-- The wording of an error. The places where it arose come first. -/
def message : Error → Text
  | failure f => f.fault.message
  | symbol e => e.message
  | noReader => "runtime has no reader"
  | alreadyDefined name => "symbol already defined: " ++ name
  | setting e => e.message
  | file path e => e.message path
  | malformedConfig => "yaml: malformed configuration"
  | negativeLength n => "symbol_max_len: negative length " ++ Text.ofInt n
  | within place e => place ++ ": " ++ e.message

def root : Error → Error
  | within _ e => e.root
  | e => e

def failure? (e : Error) : Option Failure :=
  match e.root with
  | failure f => some f
  | _ => none

def cause? (e : Error) : Option Cause :=
  e.failure?.bind (·.fault.cause?)

def ofFault (f : Fault) : Error :=
  failure { fault := f }

end Error

end CountedLisp
