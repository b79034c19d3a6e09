import SchemaDrift.Schema.Table
import SchemaDrift.Source.Name

namespace SchemaDrift.Source

/-!
# The index of the modules

One file declares the modules of all tables, in the order of their names, and joins the lists of
what they define.
-/

/-- The names of the tables in increasing order. -/
def tableNames (s : Schema) : List Text := (s.tables.map (·.name)).mergeSort fun a b =>
    !decide (b < a)

def extendLine (table : Text) : Text :=
  "    " ++ aggregate ++ ".extend(" ++ moduleOf table ++ "::" ++ aggregate ++ "());\n"

def modules (s : Schema) : Text :=
  "//! Generated schema modules.\n\nuse schema_sync_core::model::Definition;\n\n" ++
    (tableNames s).flatMap (fun t => moduleDeclaration t ++ ['\n']) ++
    "\n/// Every definition in the schema.\npub fn " ++ aggregate ++
    "() -> Vec<Definition> \x7b\n    let mut " ++ aggregate ++ " = Vec::new();\n" ++
    (tableNames s).flatMap extendLine ++ "    " ++ aggregate ++ "\n\x7d\n"

end SchemaDrift.Source
