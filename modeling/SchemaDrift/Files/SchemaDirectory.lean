import SchemaDrift.Files.Access
import SchemaDrift.Files.Failure
import SchemaDrift.Plan.FileChange

namespace SchemaDrift.SchemaDirectory

/-!
# The schema directory

The sources of a schema stand directly in one directory. Planned changes are applied in order, up to
the first that fails.
-/

variable {m : Type → Type} [Monad m] [MonadFiles m]

/-- A file in a directory, written with slashes. -/
def join (directory file : Text) : Text :=
  if directory.isEmpty then file
  else if directory.getLast? = some '/' then directory ++ file
  else directory ++ '/' :: file

/-- Whether a file of this name is a source. -/
def isSource (file : Text) : Bool := (Text.stripEnd ".rs" file).any (!·.isEmpty)

/-- The sources in a directory. Without the directory there are none. -/
def read (directory : Text) : ExceptT Failure m (Dict Text) := do
  if ← MonadFiles.contains directory then
    let names ← Failure.lift .io (← MonadFiles.list directory)
    (names.filter isSource).foldlM (fun files name => do
      let path := join directory name
      if ← MonadFiles.isFile path then
        let text ← Failure.lift .io (← MonadFiles.read path)
        return files.insert name text
      else return files) ∅
  else return ∅

/-- Whether the name is that of a file directly in a directory. -/
def isPlain (file : Text) : Bool :=
  !file.isEmpty && file != ['.'] && file != ['.', '.'] && !file.contains '/' && !file.contains '\\'

/-- Applies one change: the number of files that it touched. -/
def applyOne (directory : Text) (c : FileChange) : ExceptT Failure m Nat := do
  if isPlain c.file then
    let path := join directory c.file
    match c.action, c.content with
    | .delete, _ =>
      if ← MonadFiles.contains path then
        Failure.lift .io (← MonadFiles.remove path)
        return 1
      else return 0
    | .merge, none => return 0
    | _, some content =>
      Failure.lift .io (← MonadFiles.write path content)
      return 1
    | _, none => throw (.missingContent c.file)
  else throw (.invalidFileName c.file)

/-- Applies planned changes in a directory: the number of files that were touched. -/
def apply (directory : Text) (changes : List FileChange) : ExceptT Failure m Nat := do
  Failure.lift .io (← MonadFiles.makeDirectories directory)
  changes.foldlM (fun count c => return count + (← applyOne directory c)) 0

end SchemaDrift.SchemaDirectory
