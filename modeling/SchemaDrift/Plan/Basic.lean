import SchemaDrift.Merge.Basic
import SchemaDrift.Plan.FileChange
import SchemaDrift.Source.Modules

namespace SchemaDrift

/-!
# Planning file changes

The files of the schema directory are brought in step with a database. A file that is not there is
created, and one whose table is gone is deleted. A file that differs is replaced, or merged if the
code that was read from it is known.
-/

/-- What a plan covers besides the files of the tables. -/
structure PlanOptions where
  /-- Whether the index of the modules is planned too. -/
  index : Bool := false
  markers : Merge.Markers := {}

namespace Plan

/-- Whether a table of the database and one of the code say the same. -/
def agree (database code : Table) : Bool :=
  database.equivalent code && (Difference.ofTables database code).isEmpty

def mergeChange (markers : Merge.Markers) (current : Text) (database code : Table) : FileChange :=
  let outcome := merge markers current database code
  { file := Source.fileOf database.name
    table := database.name
    action := .merge
    content := if outcome.hasEdits then some outcome.text else none
    notes := outcome.notes }

/-- The change of the file of a table, if it needs one. -/
def tableChange? (existing : Dict Text) (code : Option Schema) (markers : Merge.Markers)
    (t : Table) : Option FileChange :=
  let file := Source.fileOf t.name
  let source := Source.file t
  match existing.get? file with
  | none => some { file, table := t.name, action := .create, content := source }
  | some current =>
    if current = source then none
    else
      match code.bind (·.table? t.name) with
      | none => some { file, table := t.name, action := .update, content := source }
      | some other => if agree t other then none else some (mergeChange markers current t other)

/-- The deletion of a file whose table is gone. -/
def deletion? (database : Schema) (file : Text) : Option FileChange :=
  match Source.tableOf? file with
  | none => none
  | some table =>
    if (database.table? table).isSome then none else some { file, table, action := .delete }

/-- The change of the index of the modules, if it needs one. -/
def indexChange? (database : Schema) (existing : Dict Text) : Option FileChange :=
  let source := Source.modules database
  match existing.get? Source.indexFile with
  | none => some { file := Source.indexFile, action := .create, content := source }
  | some current =>
    if current = source then none
    else some { file := Source.indexFile, action := .update, content := source }

end Plan

/-- The changes that bring the existing files in step with a database. -/
def plan (database : Schema) (existing : Dict Text) (code : Option Schema) (options : PlanOptions) :
    List FileChange :=
  database.tables.filterMap (Plan.tableChange? existing code options.markers) ++
    existing.keys.filterMap (Plan.deletion? database) ++
    if options.index then (Plan.indexChange? database existing).toList else []

end SchemaDrift
