import CountedLisp.Store.Basic

/-!
# The shape of stored values

Lists, structural equality and binding expressions as they stand in the store. A cell refers only to
cells made before it, so each walk is bounded by the rank of the value it starts at.
-/
namespace CountedLisp.Store

/-- The heads of a chain of pairs, and the value that ends the chain. -/
def spineWithin (s : Store) : (bound : Nat) → Value → List Value × Value
  | _, .nil => ([], .nil)
  | 0, v => ([], v)
  | bound + 1, v =>
    match s.node? v with
    | some (.pair car cdr) =>
      let (heads, last) := spineWithin s bound cdr
      (car :: heads, last)
    | _ => ([], v)

def spine (s : Store) (v : Value) : List Value × Value :=
  s.spineWithin v.rank v

/-- The number of pairs in a chain, and whether the chain is a proper list. -/
def length (s : Store) (v : Value) : Nat × Bool :=
  let (heads, last) := s.spine v
  (heads.length, last = .nil)

def elements? (s : Store) (v : Value) : Option (List Value) :=
  let (heads, last) := s.spine v
  if last = .nil then some heads else none

def equalWithin (s : Store) : (bound : Nat) → Value → Value → Bool
  | 0, a, b => a = b
  | bound + 1, a, b =>
    if a = b then true
    else
      match s.node? a, s.node? b with
      | some (.symbol i _), some (.symbol j _) => i == j
      | some (.number x), some (.number y) => x == y
      | some (.string t), some (.string u) => t == u
      | some (.pair a₁ d₁), some (.pair a₂ d₂) =>
        equalWithin s bound a₁ a₂ && equalWithin s bound d₁ d₂
      | _, _ => false

/-- Structural equality: symbols by number, numbers by value, strings by content, pairs by parts,
functions by identity. A value equals itself even if it holds not-a-number. -/
def equal (s : Store) (a b : Value) : Bool :=
  s.equalWithin a.rank a b

/-- Whether the pair `(car . cdr)` is a lambda expression with `sym` among its formals, where
`binder` is the symbol that starts lambda expressions. -/
def binds (s : Store) (binder sym car cdr : Value) : Bool :=
  car = binder &&
    match s.node? cdr with
    | some (.pair formals _) => (s.spine formals).1.contains sym
    | _ => false

def substituteWithin (binder sym val : Value) : (bound : Nat) → Value → StoreM Value
  | 0, expr => pure (if expr = sym then val else expr)
  | bound + 1, expr =>
    if expr = sym then pure val
    else do
      let s ← get
      match s.node? expr with
      | some (.pair car cdr) =>
        if s.binds binder sym car cdr then pure expr
        else
          let newCar ← substituteWithin binder sym val bound car
          let newCdr ← substituteWithin binder sym val bound cdr
          if newCar = car && newCdr = cdr then pure expr else cons newCar newCdr
      | _ => pure expr

/-- The expression with every free occurrence of `sym` replaced by `val`. Parts without an
occurrence are shared with the expression. -/
def substitute (binder sym val expr : Value) : StoreM Value :=
  substituteWithin binder sym val expr.rank expr

end CountedLisp.Store
