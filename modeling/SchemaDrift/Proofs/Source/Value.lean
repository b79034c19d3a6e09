import SchemaDrift.Model.OfTable
import SchemaDrift.Source.Builder

namespace SchemaDrift.Source

/-!
# Values of the generated sources

The generated sources build values by the functions and methods of the model library. Each of them
is given here by its name and by what it does to the values that it is called with.
-/

/-- A value that an expression of the generated sources can have. -/
inductive Value where
  | text (t : Text)
  | number (n : Nat)
  | operation (op : Operation)
  | permissions (p : Permissions)
  | declaration (d : Declaration)
  /-- A field with its name. -/
  | named (name : Text) (d : Declaration)
  | list (vs : List Value)
  | model (m : Model)
  | index (i : IndexDeclaration)
  | definition (r : Registration)

namespace Value

def text? : Value → Option Text
  | text t => some t
  | _ => none

def named? : Value → Option (Text × Declaration)
  | named name d => some (name, d)
  | _ => none

def definition? : Value → Option Registration
  | definition r => some r
  | _ => none

end Value

/-- A function of the library. -/
inductive Function where
  | scalar (type : Text)
  | geometry
  | record
  | option
  | container (kind : Container)
  /-- A container with a bound on the number of its elements. -/
  | bounded (kind : Container)
  | object
  | custom
  | fullPermissions
  | nonePermissions
  | allPermissions
  | newPermissions
  | normalModel
  | relationModel
  | viewModel
  | indexOn
  deriving DecidableEq

namespace Function

def all : List Function :=
  Declaration.scalars.map scalar ++
    [geometry, record, option, container .array, container .set, bounded .array, bounded .set,
      object, custom, fullPermissions, nonePermissions, allPermissions, newPermissions,
      normalModel, relationModel, viewModel, indexOn]

def path : Function → Text
  | scalar type => "Field::" ++ type
  | geometry => "Field::geometry"
  | record => "Field::record"
  | option => "Field::option"
  | container kind => "Field::" ++ kind.keyword
  | bounded kind => "Field::" ++ kind.keyword ++ "_max"
  | object => "Field::object"
  | custom => "Field::custom"
  | fullPermissions => "Permissions::full"
  | nonePermissions => "Permissions::none"
  | allPermissions => "Permissions::all"
  | newPermissions => "Permissions::new"
  | normalModel => "Model::normal"
  | relationModel => "Model::relation"
  | viewModel => "Model::view"
  | indexOn => "IndexDef::on"

def ofPath? (path : Text) : Option Function := all.find? (·.path == path)

open Declaration in
def invoke? : Function → List Value → Option Value
  | scalar type, [] => some (.declaration (plain (.scalar type)))
  | geometry, [.text kind] => some (.declaration (plain (Declaration.geometry kind)))
  | record, [.list vs] => do
    let tables ← vs.mapM Value.text?
    return .declaration (plain (.record tables))
  | option, [.declaration d] => some (.declaration (plain (.option d)))
  | container kind, [.declaration d] => some (.declaration (plain (.container kind d none)))
  | bounded kind, [.declaration d, .number n] =>
    some (.declaration (plain (.container kind d (some n))))
  | object, [.list vs] => do
    let fields ← vs.mapM Value.named?
    return .declaration (plain (.object fields))
  | custom, [.text type] => some (.declaration (plain (.custom type)))
  | fullPermissions, [] => some (.permissions (.all "FULL"))
  | nonePermissions, [] => some (.permissions (.all "NONE"))
  | allPermissions, [.text expr] => some (.permissions (.all expr))
  | newPermissions, [] => some (.permissions .empty)
  | normalModel, [.text name] => some (.model { name })
  | relationModel, [.text name] => some (.model { name, kind := .relation })
  | viewModel, [.text name, .text query] =>
    some (.model { name, kind := .view, viewQuery := some query })
  | indexOn, [.model m, .text name] => some (.index { name, table := m.name })
  | _, _ => none

end Function

/-- A method of the library. -/
inductive Method where
  | flexible
  | value
  | assertion
  | default
  | readonly
  | permissions
  | grant
  | schemaless
  | drop
  | fields
  | unique
  | definition
  deriving DecidableEq

namespace Method

def all : List Method :=
  [flexible, value, assertion, default, readonly, permissions, grant, schemaless, drop, fields,
    unique, definition]

def name : Method → Text
  | flexible => "flexible"
  | value => "value"
  | assertion => "assert"
  | default => "default"
  | readonly => "readonly"
  | permissions => "permissions"
  | grant => "with"
  | schemaless => "schemaless"
  | drop => "drop"
  | fields => "fields"
  | unique => "unique"
  | definition => "into"

def ofName? (name : Text) : Option Method := all.find? (·.name == name)

@[simp] theorem mem_all (m : Method) : m ∈ all := by cases m <;> decide

def invoke? : Method → Value → List Value → Option Value
  | flexible, .declaration (.of s c), [] => some (.declaration (.of s { c with flexible := true }))
  | value, .declaration (.of s c), [.text expr] =>
    some (.declaration (.of s { c with value := some expr }))
  | assertion, .declaration (.of s c), [.text expr] =>
    some (.declaration (.of s { c with assertion := some expr }))
  | default, .declaration (.of s c), [.text expr] =>
    some (.declaration (.of s { c with default := some expr }))
  | readonly, .declaration (.of s c), [] => some (.declaration (.of s { c with readonly := true }))
  | permissions, .declaration (.of s c), [.permissions p] =>
    some (.declaration (.of s { c with permissions := p }))
  | permissions, .model m, [.permissions p] => some (.model { m with permissions := p })
  | grant, .permissions p, [.operation op, .text expr] => some (.permissions (p.set op expr))
  | schemaless, .model m, [] => some (.model { m with schemafull := false })
  | drop, .model m, [] => some (.model { m with drop := true })
  | fields, .model m, [.list vs] => do
    let fields ← vs.mapM Value.named?
    return .model { m with fields := m.fields ++ fields }
  | fields, .index i, [.list (v :: vs)] => do
    let columns ← (v :: vs).mapM Value.text?
    return .index { i with columns }
  | unique, .index i, [] => some (.index { i with unique := true })
  | definition, .model m, [] => some (.definition (.model m))
  | definition, .index i, [] => some (.definition (.index i))
  | _, _, _ => none

end Method

/-- The value of a path that is not called: an operation, or a number. -/
def constant? (path : Text) : Option Value :=
  match Operation.all.find? fun op => ("PermissionKind::" ++ operationName op : Text) == path with
  | some op => some (.operation op)
  | none => (Text.toNatBelow? Declaration.boundLimit path).map .number

end SchemaDrift.Source
