import CountedLisp.Text.Basic

/-!
# Files of a directory

Files have names relative to a directory; slashes in a name stand for directories inside of it. A
path is followed part by part: an empty part or a dot stays where it is, two dots go one directory
up, and everything before the last part must be a directory. Nothing is known outside of the
directory, except that what lies above it are directories.
-/
namespace CountedLisp

inductive FileError where
  | missing
  | notDirectory
  | isDirectory
  | nameTooLong
  | invalidName
  | denied
  deriving Repr, DecidableEq

def FileError.message (path : Text) : FileError → Text
  | missing => "open " ++ path ++ ": no such file or directory"
  | notDirectory => "open " ++ path ++ ": not a directory"
  | isDirectory => "read " ++ path ++ ": is a directory"
  | nameTooLong => "open " ++ path ++ ": file name too long"
  | invalidName => "open " ++ path ++ ": invalid argument"
  | denied => "open " ++ path ++ ": permission denied"

def pathParts : Text → List Text
  | [] => [[]]
  | b :: rest =>
    if b == '/'.toUInt8 then [] :: pathParts rest
    else
      match pathParts rest with
      | part :: more => (b :: part) :: more
      | [] => [[b]]

structure Directory where
  files : List (Text × Text)

namespace Directory

inductive Place where
  /-- A number of directories above. -/
  | above (levels : Nat)
  /-- A directory inside, given by the names that lead to it, last one first. -/
  | inside (names : List Text)
  | file (contents : Text)

/-- What a list of names, last one first, leads to. -/
def find? (d : Directory) (names : List Text) : Option Place :=
  let parts := names.reverse
  match d.files.find? fun (name, _) => pathParts name = parts with
  | some (_, contents) => some (.file contents)
  | none =>
    if d.files.any fun (name, _) => parts.isPrefixOf (pathParts name) then some (.inside names)
    else none

def follow (d : Directory) (place : Place) (part : Text) : Except FileError Place :=
  let stays := part.isEmpty || part = Text.ofString "."
  let rises := part = Text.ofString ".."
  match place with
  | .file _ => .error .notDirectory
  | .above n =>
    if stays then .ok place
    else if rises then .ok (.above (n + 1))
    else .error (if 255 < part.length then .nameTooLong else .missing)
  | .inside names =>
    if stays then .ok place
    else if rises then .ok (if names.isEmpty then .above 1 else .inside (names.drop 1))
    else if 255 < part.length then .error .nameTooLong
    else
      match d.find? (part :: names) with
      | some next => .ok next
      | none => .error .missing

def read (d : Directory) (path : Text) : Except FileError Text :=
  if path.contains 0 then .error .invalidName
  else if path.isEmpty then .error .missing
  else if 4096 ≤ path.length then .error .nameTooLong
  else
    let start : Place := if path.head? = some '/'.toUInt8 then .above 0 else .inside []
    match (pathParts path).foldlM d.follow start with
    | .error e => .error e
    | .ok (.file contents) => .ok contents
    | .ok _ => .error .isDirectory

end Directory

end CountedLisp
