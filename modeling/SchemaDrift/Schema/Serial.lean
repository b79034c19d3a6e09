import SchemaDrift.Json.Codec
import SchemaDrift.Schema.Table

namespace SchemaDrift

/-!
# Serialized schemas

The records of a schema as JSON. A table without its own mode is schemafull.
-/

def Permissions.codec : Codec Permissions :=
  .record
    (.cons (.optional "select" .text) <| .cons (.optional "create" .text) <|
      .cons (.optional "update" .text) <| .cons (.optional "delete" .text) .nil)
    (fun (s, c, u, d, ()) => ⟨s, c, u, d⟩)
    (fun p => (p.select, p.create, p.update, p.delete, ()))

def Field.codec : Codec Field :=
  .record
    (.cons (.required "name" .text) <| .cons (.required "type" .text) <|
      .cons (.defaulted "flex" .bool false) <| .cons (.optional "default" .text) <|
      .cons (.optional "value" .text) <| .cons (.optional "assert" .text) <|
      .cons (.defaulted "readonly" .bool false) <|
      .cons (.defaulted "permissions" Permissions.codec {}) .nil)
    (fun (n, t, f, d, v, a, r, p, ()) => ⟨n, t, f, d, v, a, r, p⟩)
    (fun f => (f.name, f.type, f.flexible, f.default, f.value, f.assertion, f.readonly,
      f.permissions, ()))

def Index.codec : Codec Index :=
  .record
    (.cons (.required "name" .text) <| .cons (.required "columns" (.list .text)) <|
      .cons (.defaulted "unique" .bool false) <| .cons (.defaulted "search" .bool false) <|
      .cons (.defaulted "vector" .bool false) .nil)
    (fun (n, c, u, s, v, ()) => ⟨n, c, u, s, v⟩)
    (fun i => (i.name, i.columns, i.unique, i.search, i.vector, ()))

def Event.codec : Codec Event :=
  .record
    (.cons (.required "name" .text) <| .cons (.required "cond" .text) <|
      .cons (.required "then" .text) .nil)
    (fun (n, c, a, ()) => ⟨n, c, a⟩)
    (fun e => (e.name, e.condition, e.action, ()))

def TableKind.codec : Codec TableKind := .tag TableKind.all TableKind.tag

def Table.codec : Codec Table :=
  .record
    (.cons (.required "name" .text) <| .cons (.defaulted "type" TableKind.codec .normal) <|
      .cons (.defaulted "drop" .bool false) <| .cons (.defaulted "schemafull" .bool true) <|
      .cons (.optional "view_query" .text) <|
      .cons (.defaulted "permissions" Permissions.codec {}) <|
      .cons (.defaulted "fields" (.list Field.codec) []) <|
      .cons (.defaulted "indexes" (.list Index.codec) []) <|
      .cons (.defaulted "events" (.list Event.codec) []) .nil)
    (fun (n, k, d, s, q, p, f, i, e, ()) => ⟨n, k, d, s, q, p, f, i, e⟩)
    (fun t => (t.name, t.kind, t.drop, t.schemafull, t.viewQuery, t.permissions, t.fields,
      t.indexes, t.events, ()))

def Schema.codec : Codec Schema :=
  .record (.cons (.required "tables" (.list Table.codec)) .nil)
    (fun (t, ()) => ⟨t⟩)
    (fun s => (s.tables, ()))

end SchemaDrift
