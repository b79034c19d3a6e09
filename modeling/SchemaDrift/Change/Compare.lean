import SchemaDrift.Change.Basic
import SchemaDrift.Schema.Table
import SchemaDrift.Schema.TypeExpr

namespace SchemaDrift

/-!
# Comparing schemas

Tables and indexes are matched by name and fields by path. A field has one change for each of its
type, default and assertion that differs. The element constraint that a container implies counts as
present on both sides.
-/

namespace Table

def lastFieldAt? (t : Table) (path : Text) : Option Field :=
  t.fields.reverse.find? (·.path == path)

/-- Whether the field only says what the type of the container around it says already. -/
def implies (t : Table) (f : Field) : Bool :=
  f.isWildcard && f.default.isNone && f.value.isNone && f.assertion.isNone &&
    (((Path.parent? f.name).bind t.fieldAt?).bind fun parent => TypeExpr.element? parent.type) ==
      some (TypeExpr.normal f.type)

end Table

/-- An expression without the blanks around it; a blank expression is none. -/
def meaningful (expr : Option Text) : Option Text := (expr.map Text.trim).filter (!·.isEmpty)

namespace Change

/-- The changes of a field that both sides have. -/
def ofField (table : Text) (source target : Field) : List Change :=
  (if TypeExpr.normal source.type ≠ TypeExpr.normal target.type then
    [{ kind := .fieldTypeChanged, table, field := source.name,
       oldValue := target.type, newValue := source.type }] else []) ++
  (if meaningful source.default ≠ meaningful target.default then
    [{ kind := .fieldDefaultChanged, table, field := source.name,
       oldValue := target.default, newValue := source.default }] else []) ++
  (if meaningful source.assertion ≠ meaningful target.assertion then
    [{ kind := .fieldAssertionChanged, table, field := source.name,
       oldValue := target.assertion, newValue := source.assertion }] else [])

/-- The changes that a field of the source gives rise to. -/
def ofSourceField (source target : Table) (f : Field) : List Change :=
  match target.lastFieldAt? f.path with
  | some other => ofField source.name f other
  | none =>
    if source.implies f then []
    else [{ kind := .fieldAdded, table := source.name, field := f.name, newValue := f.type }]

/-- The changes that a field of the target gives rise to on its own. -/
def ofTargetField (source target : Table) (f : Field) : List Change :=
  if (source.lastFieldAt? f.path).isSome || target.implies f then []
  else [{ kind := .fieldRemoved, table := source.name, field := f.name, oldValue := f.type }]

/-- The changes that an index of the source gives rise to. -/
def ofSourceIndex (source target : Table) (i : Index) : List Change :=
  match target.index? i.name with
  | none =>
    [{ kind := .indexAdded, table := source.name, index := i.name, newValue := i.summary }]
  | some other =>
    if other.columns ≠ i.columns ∨ other.unique ≠ i.unique then
      [{ kind := .indexModified, table := source.name, index := i.name,
         oldValue := other.summary, newValue := i.summary }]
    else []

/-- The changes that an index of the target gives rise to on its own. -/
def ofTargetIndex (source : Table) (i : Index) : List Change :=
  if (source.index? i.name).isSome then []
  else [{ kind := .indexRemoved, table := source.name, index := i.name, oldValue := i.summary }]

def ofKind (source target : Table) : List Change :=
  if source.kind = target.kind then []
  else [{ kind := .tableTypeChanged, table := source.name,
          oldValue := target.kind.keyword, newValue := source.kind.keyword }]

/-- The changes between two tables, not yet described. -/
def ofTables (source target : Table) : List Change :=
  ofKind source target ++
    source.fields.flatMap (ofSourceField source target) ++
    target.fields.flatMap (ofTargetField source target) ++
    source.indexes.flatMap (ofSourceIndex source target) ++
    target.indexes.flatMap (ofTargetIndex source)

end Change

namespace Table

/-- The changes from the target to the source. -/
def compare (source target : Table) (direction : Change.Direction) : List Change :=
  (Change.ofTables source target).map (Change.describe direction)

def equivalent (a b : Table) : Bool := (a.compare b .push).isEmpty

end Table

namespace Schema

def lastTable? (s : Schema) (name : Text) : Option Table := s.tables.reverse.find? (·.name == name)

/-- The changes from the target to the source: the added tables, the removed tables, and the changes
of each table on both sides. -/
def compare (source target : Schema) (direction : Change.Direction) : List Change :=
  let added := source.tables.filter fun t => (target.table? t.name).isNone
  let removed := target.tables.filter fun t => (source.table? t.name).isNone
  added.map (fun t => Change.describe direction { kind := .tableAdded, table := t.name }) ++
    removed.map (fun t => Change.describe direction { kind := .tableRemoved, table := t.name }) ++
    source.tables.flatMap fun t =>
      ((target.lastTable? t.name).map (t.compare · direction)).getD []

end Schema

namespace Change

theorem ofTables_nil_iff {source target : Table} :
    ofTables source target = [] ↔
      ofKind source target = [] ∧ (∀ f ∈ source.fields, ofSourceField source target f = []) ∧
        (∀ f ∈ target.fields, ofTargetField source target f = []) ∧
          (∀ i ∈ source.indexes, ofSourceIndex source target i = []) ∧
            ∀ i ∈ target.indexes, ofTargetIndex source i = [] := by
  simp [ofTables, List.flatMap_eq_nil_iff]

end Change

end SchemaDrift
