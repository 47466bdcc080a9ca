import CountedLisp.Text.Basic

/-!
# Tokens of a document

A document is a sequence of tokens: indicators, names and scalars. Indentation is told by tokens of
its own, which start and end the lists and mappings that are laid out in lines.
-/
namespace CountedLisp.Document

inductive Tag where
  | implied
  | str
  | int
  | float
  | bool
  | null
  | timestamp
  | binary
  | merge
  | other
  deriving Repr, DecidableEq

/-- The tag that a name stands for. Standard tags have a long name and a short one, which starts with
two exclamation marks. -/
def Tag.ofName (name : Text) : Tag :=
  let home := Text.ofString "tag:yaml.org,2002:"
  let short := if home.isPrefixOf name then "!!" ++ name.drop home.length else name
  let known : List (String × Tag) :=
    [("!", .implied), ("!!str", .str), ("!!int", .int), ("!!float", .float), ("!!bool", .bool),
      ("!!null", .null), ("!!timestamp", .timestamp), ("!!binary", .binary), ("!!merge", .merge)]
  ((known.find? fun (n, _) => Text.ofString n = short).map (·.2)).getD .other

/-- A scalar as it is written. A scalar counts as quoted unless it is plain. -/
structure Scalar where
  tag : Tag := .implied
  quoted : Bool
  text : Text
  deriving Repr, DecidableEq

/-- A token of a document. A handle is how the name of a tag starts in short; a handle that is empty
stands for nothing. -/
inductive Token where
  | streamEnd
  | version (major minor : Nat)
  | shorthand (handle expansion : Text)
  | documentStart
  | documentEnd
  | listStart
  | mappingStart
  | blockEnd
  | openList
  | closeList
  | openMapping
  | closeMapping
  | comma
  | item
  | key
  | value
  | alias (name : Text)
  | anchor (name : Text)
  | tag (handle name : Text)
  | scalar (quoted : Bool) (text : Text)
  deriving Repr, DecidableEq

end CountedLisp.Document
