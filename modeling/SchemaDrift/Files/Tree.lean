import SchemaDrift.Dict
import SchemaDrift.Files.Path

namespace SchemaDrift

/-!
# Directory trees

A directory tree holds texts. A place in it is the list of the names that lead to it from the top.
-/

/-- A file with its text, or a directory with its entries. -/
inductive Tree where
  | file (text : Text)
  | directory (entries : List (Text × Tree))
  deriving Inhabited

namespace Tree

def empty : Tree := directory []

/-- Whether a name is longer than any file can be called. -/
def isTooLong (name : Text) : Bool := 255 < FilePath.byteLength name

def child? (name : Text) (entries : List (Text × Tree)) : Option Tree :=
  (entries.find? (·.1 == name)).map (·.2)

def find? : Tree → List Text → Option Tree
  | t, [] => some t
  | file _, _ :: _ => none
  | directory entries, name :: rest => (child? name entries).bind (find? · rest)

/-- Changes the entries of the directory at a place. -/
def changeAt (f : List (Text × Tree) → List (Text × Tree)) : Tree → List Text → Tree
  | file text, _ => file text
  | directory entries, [] => directory (f entries)
  | directory entries, name :: rest =>
    match child? name entries with
    | some inner => directory (Dict.insertEntry name (changeAt f inner rest) entries)
    | none => directory entries

/-- The tree with one directory at a place, and those above it. -/
def nested (place : List Text) : Tree :=
  place.foldr (fun name inner => directory [(name, inner)]) empty

mutual

/-- The files below a path, written with slashes, with their texts. -/
def filesBelow (above : Text) : Tree → List (Text × Text)
  | file text => [(above, text)]
  | directory entries => filesOf above entries

def filesOf (above : Text) : List (Text × Tree) → List (Text × Text)
  | [] => []
  | (name, inner) :: rest =>
    let path := if above.isEmpty then name else above ++ '/' :: name
    inner.filesBelow path ++ filesOf above rest

end

def files (t : Tree) : Dict Text := Dict.ofList (t.filesBelow [])

end Tree

end SchemaDrift
