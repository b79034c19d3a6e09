import SchemaDrift.Json.Codec

namespace SchemaDrift

/-!
# Changes

A change is one difference between a source, the side that should become true, and a target. Its
direction tells which side is the code; only the description depends on it.
-/

namespace Change

/-- What differs. -/
inductive Kind where
  | tableAdded
  | tableRemoved
  | tableTypeChanged
  | fieldAdded
  | fieldRemoved
  | fieldTypeChanged
  | fieldDefaultChanged
  | fieldAssertionChanged
  | indexAdded
  | indexRemoved
  | indexModified
  deriving DecidableEq, Repr

namespace Kind

def all : List Kind :=
  [.tableAdded, .tableRemoved, .tableTypeChanged, .fieldAdded, .fieldRemoved, .fieldTypeChanged,
    .fieldDefaultChanged, .fieldAssertionChanged, .indexAdded, .indexRemoved, .indexModified]

def tag : Kind → Text
  | tableAdded => "table_added"
  | tableRemoved => "table_removed"
  | tableTypeChanged => "table_type_changed"
  | fieldAdded => "field_added"
  | fieldRemoved => "field_removed"
  | fieldTypeChanged => "field_type_changed"
  | fieldDefaultChanged => "field_default_changed"
  | fieldAssertionChanged => "field_assertion_changed"
  | indexAdded => "index_added"
  | indexRemoved => "index_removed"
  | indexModified => "index_modified"

/-- The kind of the same difference with source and target exchanged. -/
def mirror : Kind → Kind
  | tableAdded => tableRemoved
  | tableRemoved => tableAdded
  | fieldAdded => fieldRemoved
  | fieldRemoved => fieldAdded
  | indexAdded => indexRemoved
  | indexRemoved => indexAdded
  | kind => kind

/-- What a change of this kind is about. -/
def noun : Kind → Text
  | tableAdded | tableRemoved | tableTypeChanged => "Table"
  | indexAdded | indexRemoved | indexModified => "Index"
  | _ => "Field"

/-- The part that differs, for the kinds that change something. -/
def aspect : Kind → Text
  | tableTypeChanged | fieldTypeChanged => "type"
  | fieldDefaultChanged => "default"
  | fieldAssertionChanged => "assertion"
  | _ => "definition"

@[simp] theorem mirror_mirror (k : Kind) : k.mirror.mirror = k := by cases k <;> rfl

@[simp] theorem mem_all (k : Kind) : k ∈ all := by cases k <;> decide

end Kind

/-- Which side is the source: the code, whose changes are pushed to the database, or the database,
whose changes are pulled into the code. -/
inductive Direction where
  | push
  | pull
  deriving DecidableEq, Repr

namespace Direction

def source : Direction → Text
  | push => "code"
  | pull => "database"

def target : Direction → Text
  | push => "database"
  | pull => "code"

end Direction

end Change

/-- One difference, with the values on both sides where the kind has them. -/
structure Change where
  kind : Change.Kind
  table : Text
  field : Option Text := none
  index : Option Text := none
  oldValue : Option Text := none
  newValue : Option Text := none
  description : Text := []
  deriving DecidableEq, Repr

namespace Change

/-- The table, or the field or index in it. -/
def subject (c : Change) : Text :=
  match c.field, c.index with
  | some field, _ => c.table ++ "." ++ field
  | none, some index => c.table ++ "." ++ index
  | none, none => c.table

def wording (c : Change) (direction : Direction) : Text :=
  let subject := c.kind.noun ++ " '" ++ c.subject ++ "'"
  let old := c.oldValue.getD "(none)"
  let new := c.newValue.getD "(none)"
  match direction, c.kind with
  | .push, .tableAdded | .push, .indexAdded => subject ++ " will be created"
  | .push, .fieldAdded => subject ++ " will be added"
  | .push, .tableRemoved | .push, .fieldRemoved | .push, .indexRemoved =>
    subject ++ " will be removed"
  | .push, kind => subject ++ " " ++ kind.aspect ++ " will change from " ++ old ++ " to " ++ new
  | .pull, .tableAdded | .pull, .fieldAdded | .pull, .indexAdded =>
    subject ++ " exists in " ++ direction.source ++ " but not in " ++ direction.target
  | .pull, .tableRemoved | .pull, .fieldRemoved | .pull, .indexRemoved =>
    subject ++ " exists in " ++ direction.target ++ " but not in " ++ direction.source
  | .pull, kind =>
    subject ++ " " ++ kind.aspect ++ " differs (" ++ direction.source ++ ": " ++ new ++ ", " ++
      direction.target ++ ": " ++ old ++ ")"

/-- The change with its description for a direction. -/
def describe (direction : Direction) (c : Change) : Change :=
  { c with description := c.wording direction }

def Kind.codec : Codec Kind := .tag Kind.all Kind.tag

def codec : Codec Change :=
  .record
    (.cons (.required "type" Kind.codec) <| .cons (.required "table" .text) <|
      .cons (.optional "field" .text) <| .cons (.optional "index" .text) <|
      .cons (.optional "old_value" .text) <| .cons (.optional "new_value" .text) <|
      .cons (.required "description" .text) .nil)
    (fun (k, t, f, i, o, n, d, ()) => ⟨k, t, f, i, o, n, d⟩)
    (fun c => (c.kind, c.table, c.field, c.index, c.oldValue, c.newValue, c.description, ()))

end Change

end SchemaDrift
