import SchemaDrift.Files.System

namespace SchemaDrift

/-!
# Access to files

What the program does with files is written for any monad in which files can be read and written:
that of the machine, or that of a file system that is a value.
-/

/-- A monad with files, which are named by paths. -/
class MonadFiles (m : Type → Type) where
  /-- What stands at a path, if anything does. -/
  look : Text → m (Option FileKind)
  read : Text → m (Except IoError Text)
  /-- The names in a directory. -/
  list : Text → m (Except IoError (List Text))
  /-- Makes one directory. -/
  makeDirectory : Text → m (Except IoError Unit)
  write : Text → Text → m (Except IoError Unit)
  remove : Text → m (Except IoError Unit)

namespace FileSystem

/-- An operation that changes the file system if it succeeds. -/
def attempt (f : FileSystem → Except IoError FileSystem) :
    StateM FileSystem (Except IoError Unit) :=
  fun s =>
    match f s with
    | .ok s => (.ok (), s)
    | .error e => (.error e, s)

instance : MonadFiles (StateM FileSystem) where
  look path := fun s => (s.kind? path, s)
  read path := fun s => (s.read path, s)
  list path := fun s => (s.list path, s)
  makeDirectory path := attempt (·.makeDirectory path)
  write path text := attempt (·.write path text)
  remove path := attempt (·.remove path)

end FileSystem

/-- Files are in reach of every monad above one with files. -/
instance {m n : Type → Type} [MonadLift m n] [MonadFiles m] : MonadFiles n where
  look path := MonadLift.monadLift (MonadFiles.look (m := m) path)
  read path := MonadLift.monadLift (MonadFiles.read (m := m) path)
  list path := MonadLift.monadLift (MonadFiles.list (m := m) path)
  makeDirectory path := MonadLift.monadLift (MonadFiles.makeDirectory (m := m) path)
  write path text := MonadLift.monadLift (MonadFiles.write (m := m) path text)
  remove path := MonadLift.monadLift (MonadFiles.remove (m := m) path)

namespace MonadFiles

variable {m : Type → Type} [Monad m] [MonadFiles m]

def contains (path : Text) : m Bool := return (← look path).isSome

def isFile (path : Text) : m Bool := return (← look path) == some .file

def isDirectory (path : Text) : m Bool := return (← look path) == some .directory

/-- Makes one directory unless it is there. -/
def ensureDirectory (path : Text) : m (Except IoError Unit) := do
  if ← isDirectory path then return .ok () else makeDirectory path

/-- Makes the first of some directories, each of which lies in the next, and those of the others
that are missing. -/
def ensureFirst : List Text → m (Except IoError Unit)
  | [] => return .ok ()
  | path :: above => do
    match ← ensureDirectory path with
    | .error .notFound =>
      match ← ensureFirst above with
      | .ok () => ensureDirectory path
      | .error e => return .error e
    | result => return result

/-- Makes a directory with those above it, as far as they are missing. -/
def makeDirectories (path : Text) : m (Except IoError Unit) :=
  if path.isEmpty then return .ok ()
  else ensureFirst (path :: (FilePath.ofText path).above.map FilePath.toText)

end MonadFiles

end SchemaDrift
