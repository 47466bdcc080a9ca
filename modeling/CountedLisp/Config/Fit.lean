import CountedLisp.Config.Basic
import CountedLisp.Document.Tree

/-!
# Fitting a document to a configuration

The trees of a document are looked at one after another. A tree of the wrong type does not fit: it
changes nothing and reading goes on, but the document is refused in the end. Reading stops at a scalar
that its tag does not fit, and at a document that is mostly made of aliases.
-/
namespace CountedLisp.Config

open Document

inductive Stop where
  | malformed
  | unusableKey
  deriving Repr, DecidableEq

structure Progress where
  config : Config := {}
  /-- Whether everything fits so far. -/
  fits : Bool := true
  /-- While entries are taken over, the keys that have their values already. -/
  settled : Option (List Meaning) := none
  /-- How many trees were looked at. -/
  trees : Nat := 0
  /-- How many of them were reached through an alias. -/
  aliased : Nat := 0

abbrev Fit := StateT Progress (Except Stop)

/-- Whether too many of the trees come from aliases. In small documents 99 of 100 may, and the share
falls to 10 of 100 between 400 thousand and 4 million trees. -/
def Progress.isExcessive (p : Progress) : Bool :=
  let range := 3600000
  let beyond := min (p.trees - 400000) range
  1000 < p.trees && 100 < p.aliased &&
    p.trees * (99 * range - 89 * beyond) < 100 * range * p.aliased

namespace Fit

def misfit : Fit PUnit :=
  modify ({ · with fits := false })

def visit (aliased : Bool) : Fit PUnit := do
  let p ← get
  let p := { p with trees := p.trees + 1, aliased := if aliased then p.aliased + 1 else p.aliased }
  if p.isExcessive then throw .malformed
  set p

/-- Looks at a tree, or at what it stands for if it is an alias, and tells whether an alias led there.
An alias that has no tree stays. -/
def follow (n : Tree) (aliased : Bool) : Fit (Tree × Bool) := do
  visit aliased
  match n with
  | .alias _ (some target) =>
    visit true
    return (target, true)
  | n => return (n, aliased)

def meaning (s : Scalar) : Fit Meaning :=
  match s.meaning? with
  | some m => return m
  | none => throw .malformed

/-- Reads a scalar by what it means. There is nothing to read from one that means nothing. -/
def scalar (n : Tree) (aliased : Bool) (read : Scalar → Meaning → Option α) : Fit (Option α) := do
  match ← follow n aliased with
  | (.scalar s, _) =>
    match ← meaning s with
    | .nothing => return none
    | m =>
      let found := read s m
      if found.isNone then misfit
      return found
  | _ =>
    misfit
    return none

def text (s : Scalar) : Meaning → Text
  | .words t => t
  | _ => s.text

def text? (n : Tree) (aliased : Bool) : Fit (Option Text) :=
  scalar n aliased fun s m => some (text s m)

def texts (aliased : Bool) : List Tree → Fit (List Text)
  | [] => return []
  | n :: rest => do
    let first ← text? n aliased
    return first.toList ++ (← texts aliased rest)

def textList (n : Tree) (aliased : Bool) : Fit (List Text) := do
  match ← follow n aliased with
  | (.list items, aliased) => texts aliased items
  | (.scalar s, _) =>
    match ← meaning s with
    | .nothing => return []
    | _ =>
      misfit
      return []
  | _ =>
    misfit
    return []

def change (f : Config → Config) : Fit PUnit :=
  modify fun p => { p with config := f p.config }

/-- Changes the configuration by the value of a key. A value that means nothing leaves it as it is. -/
def setting (key : Text) (value : Tree) (aliased : Bool) : Fit PUnit := do
  if key = Text.ofString "debug" then
    let found ← scalar value aliased fun _ => bool?
    change fun c => { c with debug := found.getD c.debug }
  else if key = Text.ofString "prompt" then
    let found ← text? value aliased
    change fun c => { c with prompt := found.getD c.prompt }
  else if key = Text.ofString "history_file" then
    let found ← text? value aliased
    change fun c => { c with historyFile := found.getD c.historyFile }
  else if key = Text.ofString "symbol_max_len" then
    let found ← scalar value aliased fun _ => int?
    change fun c => { c with symbolLimit := found.getD c.symbolLimit }
  else if key = Text.ofString "preload" then
    let found ← textList value aliased
    change fun c => { c with preload := found }
  else misfit

end Fit

end CountedLisp.Config
