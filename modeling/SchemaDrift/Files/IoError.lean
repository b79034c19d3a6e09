import SchemaDrift.Text.Basic

namespace SchemaDrift

/-!
# Failed file operations
-/

/-- Why an operation on a file fails. -/
inductive IoError where
  | notFound
  | fileExists
  | notDirectory
  | isDirectory
  | nameTooLong
  | nulInName
  | other (message : Text)
  deriving DecidableEq, Repr

def IoError.message : IoError → Text
  | notFound => "No such file or directory (os error 2)"
  | fileExists => "File exists (os error 17)"
  | notDirectory => "Not a directory (os error 20)"
  | isDirectory => "Is a directory (os error 21)"
  | nameTooLong => "File name too long (os error 36)"
  | nulInName => "file name contained an unexpected NUL byte"
  | other message => message

end SchemaDrift
