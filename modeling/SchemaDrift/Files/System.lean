import SchemaDrift.Files.Tree

namespace SchemaDrift

/-!
# File systems

A file system is a directory tree with a working directory. A path is followed one step at a time,
and every step, also one that stays or goes up, needs a directory to start from. A failed operation
changes nothing.
-/

/-- What can stand at a path. -/
inductive FileKind where
  | file
  | directory
  | other
  deriving DecidableEq, Repr

structure FileSystem where
  root : Tree
  /-- The place of the working directory. -/
  working : List Text

namespace FileSystem

/-- A file system that is empty but for its working directory. -/
def new (working : List Text) : FileSystem := { root := .nested working, working }

/-- The way from the root to a place: the names gone into, innermost first, each with what stands
there. -/
abbrev Trail := List (Text × Tree)

/-- The place that a way leads to. -/
def Trail.place (trail : Trail) : List Text := (trail.map (·.1)).reverse

/-- What stands at the end of a way. -/
def here (s : FileSystem) : Trail → Tree
  | [] => s.root
  | (_, t) :: _ => t

/-- Goes on from the end of a way. A step up from the root stays there. -/
def follow (s : FileSystem) (trail : Trail) : List PathStep → Except IoError Trail
  | [] => .ok trail
  | step :: rest =>
    match s.here trail with
    | .file _ => .error .notDirectory
    | .directory entries =>
      match step with
      | .stay => s.follow trail rest
      | .up => s.follow trail.tail rest
      | .into name =>
        if Tree.isTooLong name then .error .nameTooLong
        else
          match Tree.child? name entries with
          | none => .error .notFound
          | some t => s.follow ((name, t) :: trail) rest

/-- The path that a text denotes, with the way to where it starts. -/
def start (s : FileSystem) (path : Text) : Except IoError (Trail × FilePath) :=
  match FilePath.fault? path with
  | some e => .error e
  | none =>
    let p := FilePath.ofText path
    if p.isAbsolute then .ok ([], p)
    else return (← s.follow [] (s.working.map .into), p)

def find (s : FileSystem) (path : Text) : Except IoError Tree := do
  let (trail, p) ← s.start path
  return s.here (← s.follow trail (if p.endsInSlash then p.steps ++ [.stay] else p.steps))

def kind? (s : FileSystem) (path : Text) : Option FileKind :=
  match s.find path with
  | .ok (.file _) => some .file
  | .ok (.directory _) => some .directory
  | .error _ => none

def read (s : FileSystem) (path : Text) : Except IoError Text := do
  match ← s.find path with
  | .file text => return text
  | .directory _ => throw .isDirectory

def list (s : FileSystem) (path : Text) : Except IoError (List Text) := do
  match ← s.find path with
  | .file _ => throw .notDirectory
  | .directory entries => return entries.map (·.1)

/-- The end of a path, where something need not stand yet. -/
structure Target where
  /-- The way to the directory that the last step starts from. -/
  trail : Trail
  /-- The entries of that directory. -/
  entries : List (Text × Tree)
  /-- The name that the last step goes into, if it does. -/
  name? : Option Text
  endsInSlash : Bool

/-- Follows a path up to its last step. -/
def target (s : FileSystem) (path : Text) : Except IoError Target := do
  let (trail, p) ← s.start path
  let trail ← s.follow trail p.steps.dropLast
  match s.here trail with
  | .file _ => throw .notDirectory
  | .directory entries =>
    let name? := match p.steps.getLast? with
      | some (.into name) => some name
      | _ => none
    return { trail, entries, name?, endsInSlash := p.endsInSlash }

/-- The file system with other entries in the directory of a target. -/
def change (s : FileSystem) (target : Target)
    (f : List (Text × Tree) → List (Text × Tree)) : FileSystem :=
  { s with root := s.root.changeAt f target.trail.place }

/-- Writes a text into the file at a path, whose directory has to be there. -/
def write (s : FileSystem) (path text : Text) : Except IoError FileSystem := do
  let t ← s.target path
  match t.name? with
  | none => throw .isDirectory
  | some name =>
    if t.endsInSlash then throw .isDirectory
    else if Tree.isTooLong name then throw .nameTooLong
    else
      match Tree.child? name t.entries with
      | some (.directory _) => throw .isDirectory
      | _ => return s.change t (Dict.insertEntry name (.file text))

/-- Makes one directory, in a directory that has to be there. -/
def makeDirectory (s : FileSystem) (path : Text) : Except IoError FileSystem := do
  let t ← s.target path
  match t.name? with
  | none => throw .fileExists
  | some name =>
    if Tree.isTooLong name then throw .nameTooLong
    else if (Tree.child? name t.entries).isSome then throw .fileExists
    else return s.change t (Dict.insertEntry name .empty)

def remove (s : FileSystem) (path : Text) : Except IoError FileSystem := do
  let t ← s.target path
  match t.name? with
  | none => throw .isDirectory
  | some name =>
    if Tree.isTooLong name then throw .nameTooLong
    else
      match Tree.child? name t.entries with
      | none => throw .notFound
      | some (.directory _) => throw .isDirectory
      | some (.file _) =>
        if t.endsInSlash then throw .notDirectory
        else return s.change t (·.filter (·.1 != name))

/-- The files below the working directory by their paths from there. -/
def files (s : FileSystem) : Dict Text := ((s.root.find? s.working).getD .empty).files

end FileSystem

end SchemaDrift
