import SchemaDrift.Json.Codec
import SchemaDrift.Statement.Read

namespace SchemaDrift

/-!
# Warnings

A warning says what was passed over while a schema was read. It never stops the reading.
-/

namespace Warning

inductive Kind where
  /-- A definition that is not read. -/
  | parseFailure
  /-- A definition or a type of a kind that is not synchronized. -/
  | unsupportedFeature
  /-- A definition for a table that is not there. -/
  | structuralMismatch
  /-- A table that the database does not answer for. -/
  | introspectionFailure
  deriving DecidableEq, Repr

namespace Kind

def all : List Kind :=
  [.parseFailure, .unsupportedFeature, .structuralMismatch, .introspectionFailure]

def tag : Kind → Text
  | parseFailure => "parse_failure"
  | unsupportedFeature => "unsupported_feature"
  | structuralMismatch => "structural_mismatch"
  | introspectionFailure => "introspection_failure"

end Kind

end Warning

/-- One warning, with a hint what to do about it. -/
structure Warning where
  kind : Warning.Kind
  subject : Text
  reason : Text
  hint : Option Text := none
  deriving DecidableEq, Repr

namespace Warning

def display (w : Warning) : Text :=
  w.subject ++ ": " ++ w.reason ++
    match w.hint with
    | some hint => " (" ++ hint ++ ")"
    | none => []

def codec : Codec Warning :=
  .record
    (.cons (.required "kind" (.tag Kind.all Kind.tag)) <| .cons (.required "subject" .text) <|
      .cons (.required "reason" .text) <| .cons (.optional "hint" .text) .nil)
    (fun (k, s, r, h, ()) => ⟨k, s, r, h⟩)
    (fun w => (w.kind, w.subject, w.reason, w.hint, ()))

def ofKind (kind : Kind) (warnings : List Warning) : List Warning :=
  warnings.filter (·.kind == kind)

def parseFailure (subject : Text) (fault : Fault) : Warning where
  kind := .parseFailure
  subject
  reason := fault.message
  hint := some "The definition was skipped; check the statement syntax"

def unsupported (subject reason hint : Text) : Warning :=
  ⟨.unsupportedFeature, subject, reason, hint⟩

/-- A definition of a kind that no schema holds. -/
def unsupportedDefinition (keyword name : Text) : Warning :=
  unsupported (Text.lowercase keyword ++ " " ++ name)
    ("DEFINE " ++ keyword ++ " statements are not synchronized")
    "Manage them in hand-written migrations"

/-- A definition for a table that the script does not define. -/
def undefinedTable (noun : Noun) (table name : Text) : Warning where
  kind := .structuralMismatch
  subject := noun.label ++ " " ++ table ++ "." ++ name
  reason := "Table '" ++ table ++ "' is not defined in the script"

/-- A table that the database failed to describe. -/
def unansweredTable (name cause : Text) : Warning where
  kind := .introspectionFailure
  subject := "table " ++ name
  reason := "INFO FOR TABLE failed: " ++ cause
  hint := some "The table was skipped"

end Warning

end SchemaDrift
