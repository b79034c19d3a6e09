import SchemaDrift.Schema.Table

namespace SchemaDrift.Statement

/-!
# Writing definitions

A definition is written in one line with a fixed order of clauses. Full-text and vector indexes have
no written form.
-/

/-- Whether a definition may replace an existing one. -/
inductive Mode where
  | create
  | overwrite
  deriving DecidableEq, Repr

/-- The word of the mode after the noun, with the blank in front of it. -/
def Mode.word : Mode → Text
  | create => ""
  | overwrite => " OVERWRITE"

/-- A clause with its body, if there is one. -/
def clause (keyword : Text) : Option Text → Text
  | none => []
  | some body => " " ++ keyword ++ " " ++ body

/-- A word that stands for true. -/
def word (keyword : Text) (present : Bool) : Text := if present then " " ++ keyword else []

def grants (p : Permissions) : Text :=
  p.granted.flatMap fun (op, expr) => " FOR " ++ op.keyword ++ " " ++ expr

/-- The permissions clause. One word stands for four operations that are all full or all denied. -/
def permissions (p : Permissions) : Text :=
  if p.isEmpty then []
  else
    " PERMISSIONS" ++
      match p.uniform? with
      | some expr =>
        if Text.sameLetters expr "FULL" || Text.sameLetters expr "NONE" then " " ++ expr
        else grants p
      | none => grants p

/-- The kind of a table; a view is known by its query. -/
def kind : TableKind → Text
  | .normal => " TYPE NORMAL"
  | .relation => " TYPE RELATION"
  | .view => []

/-- The definition of a table without its fields and indexes. -/
def writeTable (t : Table) (mode : Mode) : Text :=
  "DEFINE TABLE" ++ mode.word ++ " " ++ t.name ++ kind t.kind ++ word "DROP" t.drop ++
    (if t.schemafull then " SCHEMAFULL" else " SCHEMALESS" : Text) ++ clause "AS" t.viewQuery ++
    permissions t.permissions ++ ";"

def writeField (table : Text) (f : Field) (mode : Mode) : Text :=
  "DEFINE FIELD" ++ mode.word ++ " " ++ f.name ++ " ON TABLE " ++ table ++
    word "FLEXIBLE" f.flexible ++ clause "TYPE" (some f.type) ++ clause "VALUE" f.value ++
    clause "ASSERT" f.assertion ++ clause "DEFAULT" f.default ++ word "READONLY" f.readonly ++
    permissions f.permissions ++ ";"

/-- The definition of an index, unless the database manages the index on its own. -/
def writeIndex? (table : Text) (i : Index) (mode : Mode) : Option Text :=
  if i.isDetectionOnly then none
  else some ("DEFINE INDEX" ++ mode.word ++ " " ++ i.name ++ " ON TABLE " ++ table ++ " FIELDS " ++
    Text.join ", " i.columns ++ word "UNIQUE" i.unique ++ ";")

/-- A relation declares the fields `in` and `out` by itself, so their definitions overwrite. -/
def fieldMode (t : Table) (f : Field) : Mode :=
  if t.kind = .relation ∧ (f.name = "in" ∨ f.name = "out") then .overwrite else .create

/-- The definitions that make up a table: the table, its fields without the element constraints,
and its indexes. -/
def definitions (t : Table) : List Text :=
  writeTable t .create ::
    (t.properFields.map (fun f => writeField t.name f (fieldMode t f)) ++
      t.indexes.filterMap fun i => writeIndex? t.name i .create)

/-- The definitions of a table, one on a line. -/
def script (t : Table) : Text := Text.join "\n" (definitions t)

def removeTable (table : Text) : Text := "REMOVE TABLE " ++ table ++ ";"

def removeField (table field : Text) :
    Text := "REMOVE FIELD " ++ field ++ " ON TABLE " ++ table ++ ";"

def removeIndex (table index : Text) :
    Text := "REMOVE INDEX " ++ index ++ " ON TABLE " ++ table ++ ";"

end SchemaDrift.Statement
