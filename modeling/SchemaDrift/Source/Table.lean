import SchemaDrift.Source.Builder

namespace SchemaDrift.Source

/-!
# Sources of tables

The file of a table has one function for its model, one for each index that the code can declare,
and one that lists them all.
-/

def imports : Text :=
  "#[allow(unused_imports)]\nuse schema_sync_core::model::\x7bDefinition, Field, IndexDef, " ++
    "Model, PermissionKind, Permissions\x7d;\n"

def preamble (table : Text) : Text :=
  "//! Table \x60" ++ table ++ "\x60.\n//!\n//! Generated by schema-sync. Hand edits are kept " ++
    "when the file is merged.\n\n" ++ imports ++ "\n"

def constructor (m : Model) : Text :=
  match m.kind, m.viewQuery with
  | .view, some query => "Model::view(" ++ Text.quote m.name ++ ", " ++ Text.quote query ++ ")"
  | .relation, _ => "Model::relation(" ++ Text.quote m.name ++ ")"
  | _, _ => "Model::normal(" ++ Text.quote m.name ++ ")"

def callLine (call : Text) : Text := if call.isEmpty then [] else "        " ++ call ++ "\n"

def fieldsCall (fields : List (Text × Declaration)) : Text :=
  if fields.isEmpty then ".fields(vec![])"
  else ".fields(vec![\n" ++ entryLines "            " fields ++ "        ])"

def modelFunction (m : Model) : Text :=
  "pub fn model() -> Model \x7b\n    " ++ constructor m ++ "\n" ++
    callLine (bareCall "schemaless" (!m.schemafull)) ++ callLine (bareCall "drop" m.drop) ++
    callLine (permissionsCall m.permissions) ++ callLine (fieldsCall m.fields) ++ "\x7d\n"

/-- The function that returns an index, unless the database manages the index on its own. -/
def indexFunction? (i : Index) : Option Text :=
  if i.isDetectionOnly then none
  else
    some ("pub fn " ++ functionOf i.name ++ "() -> IndexDef \x7b\n    IndexDef::on(&model(), " ++
      Text.quote i.name ++ ").fields([" ++ Text.join ", " (i.columns.map Text.quote) ++ "])" ++
      bareCall "unique" i.unique ++ "\n\x7d\n")

/-- A function call that gives an element of the list of definitions. -/
def definition (function : Text) : Text := function ++ "().into()"

/-- The function that lists the model and the indexes. -/
def aggregateFunction (indexes : List Index) : Text :=
  "\npub fn " ++ aggregate ++ "() -> Vec<Definition> \x7b\n    vec![" ++
    Text.join ", " (definition "model" :: indexes.map fun i => definition (functionOf i.name)) ++
    "]\n\x7d\n"

def file (t : Table) : Text :=
  preamble t.name ++ modelFunction (Model.ofTable t) ++
    (t.indexes.filterMap indexFunction?).flatMap (fun f => '\n' :: f) ++
    aggregateFunction (t.indexes.filter (!·.isDetectionOnly))

end SchemaDrift.Source
