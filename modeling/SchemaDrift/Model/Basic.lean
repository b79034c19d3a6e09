import SchemaDrift.Model.Declaration
import SchemaDrift.Reading.Script
import SchemaDrift.Text.Quoted

namespace SchemaDrift

/-!
# Models

A model declares a table in code. The models and indexes that the code registers make up its schema;
a later model takes the place of an earlier one of its name, with a warning.
-/

/-- A table as the code declares it. -/
structure Model where
  name : Text
  kind : TableKind := .normal
  schemafull : Bool := true
  drop : Bool := false
  viewQuery : Option Text := none
  permissions : Permissions := {}
  fields : List (Text × Declaration) := []

namespace Model

/-- The table of a model. Of two fields at one path the later one counts. -/
def table (m : Model) : Table :=
  let bare : Table :=
    { name := m.name
      kind := m.kind
      drop := m.drop
      schemafull := m.schemafull
      viewQuery := m.viewQuery
      permissions := m.permissions }
  (m.fields.flatMap fun (name, d) => d.flatten name).foldl Table.addField bare

end Model

/-- An index as the code declares it. -/
structure IndexDeclaration where
  name : Text
  table : Text
  columns : List Text := []
  unique : Bool := false
  deriving DecidableEq, Repr

namespace IndexDeclaration

def index (i : IndexDeclaration) : Index :=
  { name := i.name, columns := i.columns, unique := i.unique }

end IndexDeclaration

/-- What the code registers. -/
inductive Registration where
  | model (m : Model)
  | index (i : IndexDeclaration)

namespace Registration

/-- A short form of the registration, for logs. -/
def display : Registration → Text
  | model m => "Model(" ++ Text.quote m.name ++ ")"
  | index i =>
    "Index(IndexDef \x7b name: " ++ Text.quote i.name ++ ", table: " ++ Text.quote i.table ++
      ", columns: [" ++ Text.join ", " (i.columns.map Text.quote) ++ "], unique: " ++
      (if i.unique then "true" else "false" : Text) ++ " \x7d)"

def model? : Registration → Option Model
  | model m => some m
  | index _ => none

def index? : Registration → Option IndexDeclaration
  | model _ => none
  | index i => some i

/-- A table that an earlier model declares already. -/
def repeated (name : Text) : Warning where
  kind := .structuralMismatch
  subject := "table " ++ name
  reason := "Table is registered more than once; the last definition wins"

/-- An index of a table that no model declares. -/
def unregistered (i : IndexDeclaration) : Warning where
  kind := .structuralMismatch
  subject := "index " ++ i.table ++ "." ++ i.name
  reason := "Table '" ++ i.table ++ "' is not registered"
  hint := some "Register the owning model alongside its indexes"

def addModel (r : Reading) (m : Model) : Reading where
  schema := r.schema.addTable m.table
  warnings :=
    if (r.schema.table? m.name).isSome then r.warnings ++ [repeated m.name] else r.warnings

def addIndex (r : Reading) (i : IndexDeclaration) : Reading :=
  if (r.schema.table? i.table).isSome then
    { r with schema := r.schema.modifyTable i.table (·.addIndex i.index) }
  else { r with warnings := r.warnings ++ [unregistered i] }

/-- The schema that the code registers: first its models, then its indexes. -/
def read (registrations : List Registration) : Reading :=
  (registrations.filterMap index?).foldl addIndex
    ((registrations.filterMap model?).foldl addModel {})

end Registration

end SchemaDrift
