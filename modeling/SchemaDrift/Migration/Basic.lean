import SchemaDrift.Migration.Render
import SchemaDrift.Reading.Database

namespace SchemaDrift

/-!
# Migrations

A migration turns the schema of a database into the schema of the code. It is planned from what the
database says about itself and executed as one transaction.
-/

structure Migration where
  changes : List Change
  statements : List Text
  warnings : List Warning

namespace Migration

/-- The migration of a database to the schema of the code. -/
def plan (client : Client) (code : Schema) : Except SchemaError Migration := do
  let reading ← client.introspect
  let changes := code.compare reading.schema .push
  return {
    changes
    statements := Change.statements changes code reading.schema
    warnings := reading.warnings }

def isEmpty (m : Migration) : Bool := m.statements.isEmpty

def script (m : Migration) : Text := Statement.transaction m.statements

/-- Executes the migration unless there is nothing to do: the number of executed statements, and the
scripts that the database was given. A dry run executes nothing. -/
def apply (m : Migration) (client : Client) (dryRun : Bool) :
    Except SchemaError (Nat × List Text) :=
  if m.isEmpty || dryRun then .ok (0, [])
  else
    match client.execute with
    | .ok () => .ok (m.statements.length, [m.script])
    | .error cause => .error (.database "apply migration" cause)

end Migration

end SchemaDrift
