import SchemaDrift.Change.Compare

namespace SchemaDrift

/-!
# Differences without a change

Some parts of a table are not compared for changes: the options of the table, its permissions, and
the further clauses of its fields. What differs there is only reported.
-/

/-- A difference that no kind of change describes. -/
inductive Difference where
  /-- The table is schemafull in the database and not in the code, or the other way round. -/
  | mode (table : Text) (schemafull : Bool)
  | drop (table : Text)
  | viewQuery (table : Text)
  | permissions (table : Text)
  /-- The clauses of a field that differ, by their keywords. -/
  | clauses (field : Text) (keywords : List Text)
  deriving DecidableEq, Repr

namespace Difference

def message : Difference → Text
  | mode table schemafull =>
    "table " ++ table ++ ": the database table is " ++
      (if schemafull then "SCHEMAFULL" else "SCHEMALESS" : Text)
  | drop table => "table " ++ table ++ ": DROP differs from the database"
  | viewQuery table => "table " ++ table ++ ": view query differs from the database"
  | permissions table => "table " ++ table ++ ": permissions differ from the database"
  | clauses field keywords =>
    "field " ++ field ++ ": " ++ Text.join ", " keywords ++ " differs from the database"

/-- The keyword, if two values differ. -/
def keywordIf (keyword : Text) (differs : Bool) : List Text := if differs then [keyword] else []

/-- The clauses in which two fields differ besides those that are compared. -/
def ofClauses (database code : Field) : List Text :=
  keywordIf "VALUE" (meaningful database.value != meaningful code.value) ++
    keywordIf "FLEXIBLE" (database.flexible != code.flexible) ++
    keywordIf "READONLY" (database.readonly != code.readonly) ++
    keywordIf "PERMISSIONS" (database.permissions != code.permissions)

/-- The difference between a field and the field of the code at its path, if there is one. -/
def ofField? (code : Table) (f : Field) : Option Difference :=
  match code.fieldAt? f.name with
  | none => none
  | some other =>
    match ofClauses f other with
    | [] => none
    | keyword :: rest => some (clauses f.name (keyword :: rest))

/-- The differences between the options of two tables. -/
def ofOptions (database code : Table) : List Difference :=
  (if database.schemafull = code.schemafull then []
    else [mode database.name database.schemafull]) ++
  (if database.drop = code.drop then [] else [drop database.name]) ++
  (if meaningful database.viewQuery = meaningful code.viewQuery then []
    else [viewQuery database.name]) ++
  (if database.permissions = code.permissions then [] else [permissions database.name])

/-- The differences between two tables that no change describes. -/
def ofTables (database code : Table) : List Difference :=
  ofOptions database code ++ database.fields.filterMap (ofField? code)

end Difference

end SchemaDrift
