import SchemaDrift.Merge.Edit

namespace SchemaDrift

namespace Merge

/-!
# Merging

The file of a table is brought in step with the database without being written anew. First what the
database does not have is commented out, then what it has in addition is inserted. All other
differences are reported.
-/

/-- The comments above what a merge inserts and comments out. -/
structure Markers where
  added : Text := "Added from database schema"
  removed : Text := "Removed: no longer in database schema"
  deriving DecidableEq, Repr

/-- The fields of the table itself in the changes of one kind. -/
def roots (kind : Change.Kind) (changes : List Change) : List Text :=
  (changes.filter (·.kind = kind)).filterMap (·.field.filter Path.isTopLevel)

/-- Passes over a field inside another one. The field around it speaks for it if that is among the
`roots`. -/
def passOver (roots : List Text) (o : Outcome) (name : Text) : Outcome :=
  if roots.contains (Path.root name) then o else o.skip (.field name) .nested

def takeField (markers : Markers) (roots : List Text) (o : Outcome) (name : Text) : Outcome :=
  if Path.isTopLevel name then
    match removeField o.text name markers.removed with
    | .ok text => { o with text, removedFields := o.removedFields ++ [name] }
    | .error obstacle => o.skip (.field name) obstacle
  else passOver roots o name

def takeIndex (markers : Markers) (o : Outcome) (name : Text) : Outcome :=
  match removeIndex o.text name markers.removed with
  | .ok text => { o with text, removedIndexes := o.removedIndexes ++ [name] }
  | .error obstacle => o.skip (.index name) obstacle

def removeStep (markers : Markers) (roots : List Text) (o : Outcome) (c : Change) : Outcome :=
  match c.kind, c.field, c.index with
  | .fieldRemoved, some name, _ => takeField markers roots o name
  | .indexRemoved, _, some name => takeIndex markers o name
  | _, _, _ => o

def putField (markers : Markers) (roots : List Text) (database : Table) (o : Outcome) (f : Field) :
    Outcome :=
  if Path.isTopLevel f.name then
    match insertField o.text database f markers.added with
    | .ok text => { o with text, addedFields := o.addedFields ++ [f.name] }
    | .error obstacle => o.skip (.field f.name) obstacle
  else passOver roots o f.name

def putIndex (markers : Markers) (o : Outcome) (i : Index) : Outcome :=
  if i.isDetectionOnly then o.skip (.index i.name) .detectionOnly
  else
    match insertIndex o.text i markers.added with
    | .ok (text, listed) =>
      let o := { o with text, addedIndexes := o.addedIndexes ++ [i.name] }
      if listed then o else o.remark (.unlisted i.name)
    | .error obstacle => o.skip (.index i.name) obstacle

/-- Applies an addition, or reports another change. -/
def addStep (markers : Markers) (roots : List Text) (database : Table) (o : Outcome) (c : Change) :
    Outcome :=
  match c.kind with
  | .fieldAdded =>
    match c.field.bind database.field? with
    | some f => putField markers roots database o f
    | none => o
  | .indexAdded =>
    match c.index.bind database.index? with
    | some i => putIndex markers o i
    | none => o
  | .tableTypeChanged | .fieldTypeChanged | .fieldDefaultChanged | .fieldAssertionChanged
  | .indexModified => o.remark (.changed c)
  | _ => o

end Merge

/-- Merges the differences between a table of the database and a table of the code into the text
that the latter was read from. -/
def merge (markers : Merge.Markers) (text : Text) (database code : Table) : Merge.Outcome :=
  let changes := database.compare code .pull
  let removed :=
    changes.foldl (Merge.removeStep markers (Merge.roots .fieldRemoved changes)) { text }
  let added :=
    changes.foldl (Merge.addStep markers (Merge.roots .fieldAdded changes) database) removed
  { added with
    review := added.review ++ (Difference.ofTables database code).map Merge.Remark.differs }

end SchemaDrift
