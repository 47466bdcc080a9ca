import CountedLisp.Document.Scan

/-!
# Documents

A document, written in YAML, is a tree of scalars, lists and mappings. It is built from tokens; an
alias stands for the tree at its anchor. What follows the first document of a text is not looked
at.
-/
namespace CountedLisp.Document

/-- A part of a document. An alias inside of the tree at its own anchor has no tree to stand for. -/
inductive Tree where
  | scalar (s : Scalar)
  | list (items : List Tree)
  | mapping (entries : List (Tree × Tree))
  | alias (name : Text) (target : Option Tree)
  deriving Repr, Inhabited

structure Assembly where
  /-- The tokens that are left. -/
  tokens : List Token
  /-- What handles stand for. -/
  shorthands : List (Text × Text) := []
  /-- The anchors so far, the newest last, and their trees once these are complete. -/
  anchors : Array (Text × Option Tree) := #[]

abbrev Assemble := StateT Assembly Option

namespace Assemble

def peek : Assemble Token := do
  match (← get).tokens with
  | t :: _ => pure t
  | [] => failure

def skip : Assemble PUnit :=
  modify fun a => { a with tokens := a.tokens.drop 1 }

def expect (t : Token) : Assemble PUnit := do
  if (← peek) = t then skip else failure

def atAny (ts : List Token) : Assemble Bool := do
  return ts.contains (← peek)

def nothing : Tree :=
  .scalar ⟨.implied, false, []⟩

/-! ## Anchors and tags -/

structure Properties where
  anchor : Option Text := none
  tag : Option Tag := none

def anchor? : Assemble (Option Text) := do
  match ← peek with
  | .anchor name => skip; return some name
  | _ => return none

def standardShorthands : List (Text × Text) :=
  [("!", "!"), ("!!", "tag:yaml.org,2002:")]

def namedTag (handle name : Text) : Assemble Tag := do
  if handle.isEmpty then return Tag.ofName name
  match ((← get).shorthands ++ standardShorthands).lookup handle with
  | some expansion => return Tag.ofName (expansion ++ name)
  | none => failure

def tag? : Assemble (Option Tag) := do
  match ← peek with
  | .tag handle name => skip; return some (← namedTag handle name)
  | _ => return none

def properties : Assemble Properties := do
  match ← anchor? with
  | some name => return ⟨some name, ← tag?⟩
  | none =>
    match ← tag? with
    | some t => return ⟨← anchor?, some t⟩
    | none => return {}

def setAnchor (name : Option Text) (n : Option Tree) : Assemble PUnit :=
  match name with
  | some name => modify fun a => { a with anchors := a.anchors.push (name, n) }
  | none => pure ⟨⟩

/-- Builds a tree that has parts. Its anchor is set before they are built. -/
def withParts (name : Option Text) (build : Assemble Tree) : Assemble Tree := do
  let slot := (← get).anchors.size
  setAnchor name none
  let n ← build
  if let some name := name then
    modify fun a => { a with anchors := a.anchors.setIfInBounds slot (name, some n) }
  return n

/-- An alias of the tree at the newest anchor of that name. -/
def anchored (name : Text) : Assemble Tree := do
  match (← get).anchors.findSomeRev? fun (n, t) => if n = name then some t else none with
  | some target => return .alias name target
  | none => failure

def scalar (p : Properties) (quoted : Bool) (text : Text) : Assemble Tree := do
  let n := Tree.scalar ⟨p.tag.getD .implied, quoted, text⟩
  setAnchor p.anchor (some n)
  return n

def bare (p : Properties) : Assemble Tree :=
  if p.anchor.isSome || p.tag.isSome then scalar p false [] else failure

/-! ## Trees -/

mutual

/-- A tree. `block` tells whether it may be laid out in lines, and `flush` whether such a list may
be no further right than the mapping around it. -/
def tree (block flush : Bool) : (bound : Nat) → Assemble Tree
  | 0 => failure
  | bound + 1 => do
    if let .alias name ← peek then
      skip
      return ← anchored name
    let p ← properties
    match ← peek with
    | .item => if flush then withParts p.anchor (Tree.list <$> items bound) else bare p
    | .scalar quoted text => do
      skip
      scalar p quoted text
    | .openList => do
      skip
      withParts p.anchor (Tree.list <$> flowItems true bound)
    | .openMapping => do
      skip
      withParts p.anchor (Tree.mapping <$> flowEntries true bound)
    | .listStart => do
      if !block then failure
      skip
      let n ← withParts p.anchor (Tree.list <$> items bound)
      expect .blockEnd
      return n
    | .mappingStart => do
      if !block then failure
      skip
      let n ← withParts p.anchor (Tree.mapping <$> entries bound)
      expect .blockEnd
      return n
    | _ => bare p

def items : (bound : Nat) → Assemble (List Tree)
  | 0 => failure
  | bound + 1 => do
    if (← peek) = .item then
      skip
      let item ← part false [.item, .key, .value, .blockEnd] bound
      return item :: (← items bound)
    else return []

def entries : (bound : Nat) → Assemble (List (Tree × Tree))
  | 0 => failure
  | bound + 1 => do
    if (← peek) = .key then
      skip
      let ends : List Token := [.key, .value, .blockEnd]
      let key ← part true ends bound
      let value ← valueAfter true ends bound
      return (key, value) :: (← entries bound)
    else return []

def part (flush : Bool) (ends : List Token) : (bound : Nat) → Assemble Tree
  | 0 => failure
  | bound + 1 => do if ← atAny ends then return nothing else tree true flush bound

/-- A value that a colon announces; there is none without it, or before the given tokens. -/
def valueAfter (block : Bool) (ends : List Token) : (bound : Nat) → Assemble Tree
  | 0 => failure
  | bound + 1 => do
    if (← peek) = .value then
      skip
      if ← atAny ends then return nothing else tree block block bound
    else return nothing

def flowItems (first : Bool) : (bound : Nat) → Assemble (List Tree)
  | 0 => failure
  | bound + 1 => do
    if !first && (← peek) != .closeList then expect .comma
    match ← peek with
    | .closeList => do
      skip
      return []
    | .key => do
      skip
      let ends : List Token := [.comma, .closeList]
      let key ←
        if ← atAny (.value :: ends) then
          skip
          pure nothing
        else tree false false bound
      let value ← valueAfter false ends bound
      return .mapping [(key, value)] :: (← flowItems false bound)
    | _ => do
      let item ← tree false false bound
      return item :: (← flowItems false bound)

def flowEntries (first : Bool) : (bound : Nat) → Assemble (List (Tree × Tree))
  | 0 => failure
  | bound + 1 => do
    if !first && (← peek) != .closeMapping then expect .comma
    match ← peek with
    | .closeMapping => do
      skip
      return []
    | .key => do
      skip
      let ends : List Token := [.comma, .closeMapping]
      let key ← if ← atAny (.value :: ends) then pure nothing else tree false false bound
      let value ← valueAfter false ends bound
      return (key, value) :: (← flowEntries false bound)
    | _ => do
      let key ← tree false false bound
      return (key, nothing) :: (← flowEntries false bound)

end

/-! ## Documents -/

/-- Reads directives. The version of the format must be 1.1 if it is given, and nothing is told
twice. -/
def directives : (bound : Nat) → (versioned : Bool) → Assemble PUnit
  | 0, _ => failure
  | bound + 1, versioned => do
    match ← peek with
    | .version major minor =>
      if versioned || (major, minor) != (1, 1) then failure
      skip
      directives bound true
    | .shorthand handle expansion =>
      let a ← get
      if (a.shorthands.lookup handle).isSome then failure
      set { a with shorthands := (handle, expansion) :: a.shorthands }
      skip
      directives bound versioned
    | _ => return ⟨⟩

def atOutside : Assemble Bool := do
  match ← peek with
  | .version .. | .shorthand .. | .documentStart | .documentEnd | .streamEnd => return true
  | _ => return false

/-- The first document, if there is one. The token after it must be there. -/
def document (bound : Nat) : Assemble (Option Tree) := do
  match ← peek with
  | .streamEnd => return none
  | .version .. | .shorthand .. | .documentStart =>
    directives bound false
    expect .documentStart
  | _ => if ← atOutside then failure
  let n ← if ← atOutside then pure nothing else tree true false bound
  let _ ← peek
  return some n

end Assemble

def parse? (t : Text) : Option (Option Tree) :=
  let tokens := tokens t
  ((Assemble.document (4 * tokens.length + 4)).run { tokens }).map (·.1)

end CountedLisp.Document
