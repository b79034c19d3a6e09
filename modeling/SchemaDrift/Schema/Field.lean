import SchemaDrift.Schema.Path
import SchemaDrift.Schema.Permissions

namespace SchemaDrift

/-!
# Fields, indexes and events

The parts of a table. Types and expressions are kept as they were written.
-/

/-- A field of a table, named by its path. -/
structure Field where
  name : Text
  type : Text
  flexible : Bool := false
  default : Option Text := none
  value : Option Text := none
  assertion : Option Text := none
  readonly : Bool := false
  permissions : Permissions := {}
  deriving DecidableEq, Inhabited, Repr

namespace Field

/-- The path of the field in its normal spelling. -/
def path (f : Field) : Text := Path.normal f.name

/-- Whether the field describes the elements of a container. -/
def isWildcard (f : Field) : Bool := Path.isWildcard f.name

end Field

/-- An index over columns of a table. -/
structure Index where
  name : Text
  columns : List Text
  unique : Bool := false
  search : Bool := false
  vector : Bool := false
  deriving DecidableEq, Inhabited, Repr

namespace Index

/-- Full-text and vector indexes are noticed but belong to the database alone. -/
def isDetectionOnly (i : Index) : Bool := i.search || i.vector

/-- The columns and the uniqueness in words. -/
def summary (i : Index) : Text :=
  Text.join ", " i.columns ++ (if i.unique then " UNIQUE" else "" : Text)

end Index

/-- A statement that runs when a condition holds. -/
structure Event where
  name : Text
  condition : Text
  action : Text
  deriving DecidableEq, Inhabited, Repr

end SchemaDrift
