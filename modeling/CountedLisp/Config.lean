import CountedLisp.Config.Fit

/-!
# Reading a configuration

A configuration is read from a document over the defaults. Unknown keys, repeated keys and entries of
the wrong type are malformed. A mapping may take over the entries of others for keys that it does not
have; a key that is a list or a mapping cannot be told apart from other keys then.
-/
namespace CountedLisp.Config

open Document

def sameKey : Tree → Tree → Bool
  | .scalar a, .scalar b => a.text = b.text
  | .alias a _, .alias b _ => a = b
  | .list _, .list _ => true
  | .mapping _, .mapping _ => true
  | _, _ => false

def hasUniqueKeys : List (Tree × Tree) → Bool
  | [] => true
  | (key, _) :: rest => !(rest.any fun (k, _) => sameKey key k) && hasUniqueKeys rest

def isMerge : Tree × Tree → Bool
  | (.scalar s, _) => s.isMerge
  | _ => false

def isText : Tree → Bool
  | .scalar s | .alias _ (some (.scalar s)) => s.isText
  | _ => false

inductive Content where
  | scalar (m : Meaning)
  | parts

/-- What the entries of a mapping are read for: to change the configuration, or only to be read, with
texts as keys or with any keys. -/
inductive Purpose where
  | settings
  | content (textKeys : Bool)

namespace Fit

def settle (keys : Option (List Meaning)) : Fit PUnit :=
  modify ({ · with settled := keys })

mutual

/-- Reads a tree of any type, unless keys are repeated in it. Trees are read at most `bound` deep. -/
def anything (aliased : Bool) : (bound : Nat) → Tree → Fit (Option Content)
  | 0, _ => throw .malformed
  | bound + 1, n => do
    match ← follow n aliased with
    | (.scalar s, _) => return some (.scalar (← meaning s))
    | (.list items, aliased) =>
      for item in items do
        let _ ← anything aliased bound item
      return some .parts
    | (.mapping entries, aliased) =>
      let purpose := Purpose.content (entries.all fun (key, _) => isText key)
      return if ← mapping purpose aliased bound entries then some .parts else none
    | (.alias .., _) => throw .malformed

/-- Reads a key. Nothing comes of a key that means nothing, unless keys may be anything. -/
def key (purpose : Purpose) (aliased : Bool) : (bound : Nat) → Tree → Fit (Option Content)
  | 0, _ => throw .malformed
  | bound + 1, n =>
    match purpose with
    | .content false => anything aliased bound n
    | _ => return (← text? n aliased).map fun t => .scalar (.words t)

/-- Reads an entry, and adds its key to those that are done. If `taken` is set the entry is taken over,
and it counts only if its key is not done. -/
def entry (purpose : Purpose) (aliased taken : Bool) :
    (bound : Nat) → (done : List Meaning) → Tree × Tree → Fit (List Meaning)
  | 0, _, _ => throw .malformed
  | bound + 1, done, (k, value) => do
    match ← key purpose aliased bound k with
    | none => return done
    | some .parts => throw (if taken then .unusableKey else .malformed)
    | some (.scalar m) =>
      if taken && done.contains m then return done
      match purpose, m with
      | .settings, .words name => if done.contains m then misfit else setting name value aliased
      | _, _ => let _ ← anything aliased bound value
      return m :: done

/-- Reads a mapping, the entries of its own before those that it takes over. Tells whether no key is
repeated; otherwise nothing is read. -/
def mapping (purpose : Purpose) (aliased : Bool) : (bound : Nat) → List (Tree × Tree) → Fit Bool
  | 0, _ => throw .malformed
  | bound + 1, entries => do
    if !hasUniqueKeys entries then
      misfit
      return false
    let settled := (← get).settled
    settle none
    let done ← (entries.filter (!isMerge ·)).foldlM (entry purpose aliased settled.isSome bound)
      (settled.getD [])
    settle (settled.map fun _ => done)
    if let some (_, source) := entries.find? isMerge then
      if settled.isNone then settleKeys aliased bound entries
      takeOver purpose aliased bound source
      if settled.isNone then settle none
    return true

def settleKeys (aliased : Bool) : (bound : Nat) → List (Tree × Tree) → Fit PUnit
  | 0, _ => throw .malformed
  | bound + 1, entries => do
    settle (some [])
    for (key, _) in entries do
      match ← anything aliased bound key with
      | none => pure ⟨⟩
      | some .parts => throw .unusableKey
      | some (.scalar m) => modify fun p => { p with settled := p.settled.map (m :: ·) }

def takeOver (purpose : Purpose) (aliased : Bool) : (bound : Nat) → Tree → Fit PUnit
  | 0, _ => throw .malformed
  | bound + 1, .list items => for item in items do takeOverOne purpose aliased bound item
  | bound + 1, n => takeOverOne purpose aliased bound n

def takeOverOne (purpose : Purpose) (aliased : Bool) : (bound : Nat) → Tree → Fit PUnit
  | 0, _ => throw .malformed
  | bound + 1, n => do
    match ← follow n aliased with
    | (.mapping entries, aliased) => let _ ← mapping purpose aliased bound entries
    | _ => throw .malformed

end

def document (bound : Nat) (n : Tree) : Fit PUnit := do
  visit false
  match ← follow n false with
  | (.mapping entries, _) => let _ ← mapping .settings false bound entries
  | (.scalar s, _) =>
    match ← meaning s with
    | .nothing => pure ⟨⟩
    | _ => misfit
  | _ => misfit

end Fit

/-- The configuration that a tree describes, if it fits. A negative symbol limit is refused once
everything else is right. -/
def ofTree (bound : Nat) (n : Tree) : Except Halt Config :=
  match (Fit.document bound n).run {} with
  | .error .malformed => .error (.error .malformedConfig)
  | .error .unusableKey => .error (.violation .unusableKey)
  | .ok (_, p) =>
    if !p.fits then .error (.error .malformedConfig)
    else if p.config.symbolLimit < 0 then .error (.error (.negativeLength p.config.symbolLimit))
    else .ok p.config

def parse (t : Text) : Except Halt Config :=
  match Document.parse? t with
  | none => .error (.error .malformedConfig)
  | some none => .ok {}
  | some (some n) => ofTree (4 * t.length + 4) n

end CountedLisp.Config
