import CountedLisp.Value

/-!
# Contract violations

A violation is not an error of the interpreted program: it says that the interpreter was used
against its rules, for instance that a freed value was used again. What was done before the
violation stays done.
-/
namespace CountedLisp

inductive Violation where
  | retainFreed (kind : Kind) (id : Nat)
  | releaseUnreferenced (kind : Kind) (id : Nat)
  | emptyStack
  | keyNotSymbol (typeName : Text)
  | sharedName (name : Text)
  | unusableKey
  | noValue
  deriving Repr, DecidableEq

/-- The wording of a violation. There is none for a key that cannot be compared with others, and none
for the use of a value where there is no value. -/
def Violation.message? : Violation → Option Text
  | .retainFreed kind id => some ("retain of freed " ++ kind.name ++ " value " ++ Text.hex id)
  | .releaseUnreferenced kind id =>
    some ("release of unreferenced " ++ kind.name ++ " value " ++ Text.hex id)
  | .emptyStack => some "pop called on an empty stack"
  | .keyNotSymbol typeName => some ("environment key is not a symbol: " ++ typeName)
  | .sharedName name => some ("distinct symbol values share the name " ++ name)
  | .unusableKey => none
  | .noValue => none

end CountedLisp
