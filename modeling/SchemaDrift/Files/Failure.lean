import SchemaDrift.Files.IoError
import SchemaDrift.Json.Codec
import SchemaDrift.Reading.Database

namespace SchemaDrift

/-!
# Failures

What stops the program once it deals with files: a schema that cannot be read, a file operation, a
text that is no JSON for what it should hold, or a planned change that makes no sense.
-/

inductive Failure where
  | schema (e : SchemaError)
  | io (e : IoError)
  | serialization
  | snapshotNotFound (path : Text)
  /-- A planned file outside the schema directory. -/
  | invalidFileName (file : Text)
  /-- A file that should be written without a text. -/
  | missingContent (file : Text)
  /-- An operation on a file that was named by the user alone. -/
  | userFile (e : IoError)
  deriving DecidableEq, Repr

namespace Failure

def message : Failure → Text
  | schema e => e.message
  | io e => "IO error: " ++ e.message
  | serialization => "Serialization error"
  | snapshotNotFound path => "Snapshot not found: " ++ path
  | invalidFileName file =>
    "Refusing to write '" ++ file ++ "': file names must not contain path separators"
  | missingContent file => "No content planned for '" ++ file ++ "'"
  | userFile e => e.message

/-- A result whose error is a failure, in a monad that can fail. -/
def lift {m : Type → Type} {ε α : Type} [Monad m] (toFailure : ε → Failure) :
    Except ε α → ExceptT Failure m α
  | .ok a => pure a
  | .error e => throw (toFailure e)

def decode {m : Type → Type} {α : Type} [Monad m] (codec : Codec α) (json : Option Json) :
    ExceptT Failure m α :=
  match json.bind codec.decode with
  | some a => pure a
  | none => throw .serialization

end Failure

end SchemaDrift
