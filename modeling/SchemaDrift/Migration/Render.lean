import SchemaDrift.Change.Compare
import SchemaDrift.Statement.Write

namespace SchemaDrift

/-!
# Statements for changes

What is added or changed is written as the source defines it, and what is removed is named as the
target spells it. A change whose definition is missing has no statement.
-/

namespace Change

/-- The table and the field of the source that a change is about. -/
def field? (c : Change) (s : Schema) : Option (Table × Field) := do
  let table ← s.table? c.table
  let field ← table.fieldAt? (← c.field)
  return (table, field)

/-- The table and the index of a schema that a change is about. -/
def index? (c : Change) (s : Schema) : Option (Table × Index) := do
  let table ← s.table? c.table
  let index ← table.index? (← c.index)
  return (table, index)

/-- The statement of a change, or the statements of an added table. -/
def statement? (c : Change) (source target : Schema) : Option Text :=
  match c.kind with
  | .tableAdded => (source.table? c.table).map Statement.script
  | .tableRemoved => (target.table? c.table).map fun t => Statement.removeTable t.name
  | .tableTypeChanged =>
    (source.table? c.table).map fun t => Statement.writeTable t .overwrite
  | .fieldAdded =>
    (c.field? source).map fun (t, f) => Statement.writeField t.name f .create
  | .fieldRemoved =>
    (c.field? target).map fun (_, f) => Statement.removeField c.table f.name
  | .fieldTypeChanged | .fieldDefaultChanged | .fieldAssertionChanged =>
    (c.field? source).map fun (t, f) => Statement.writeField t.name f .overwrite
  | .indexAdded =>
    (c.index? source).bind fun (t, i) => Statement.writeIndex? t.name i .create
  | .indexRemoved =>
    (c.index? target).map fun (_, i) => Statement.removeIndex c.table i.name
  | .indexModified =>
    (c.index? source).bind fun (t, i) => Statement.writeIndex? t.name i .overwrite

/-- The statements of all changes that have one, in order. -/
def statements (changes : List Change) (source target : Schema) : List Text :=
  changes.filterMap (·.statement? source target)

end Change

namespace Statement

def transaction (statements : List Text) : Text :=
  "BEGIN TRANSACTION;\n" ++ statements.flatMap (fun s => s ++ ['\n']) ++ "COMMIT TRANSACTION;\n"

end Statement

end SchemaDrift
