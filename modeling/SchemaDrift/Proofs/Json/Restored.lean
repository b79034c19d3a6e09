import SchemaDrift.Proofs.Json.Encoded

namespace SchemaDrift

/-!
# Restored values

Schemas, changes, changes of files and snapshots come back from JSON, whether it was printed by the
codec or written in another way.
-/

variable {α : Type} {c : Codec α}

open Json

/-- Whether a value comes back from what is written for it, from the text that is printed, and from
every other way to write it, where `keys` are those of the fields. -/
structure Codec.Restores (c : Codec α) (keys : List Text) : Prop where
  decode_encode : ∀ a, c.decode (c.encode a) = some a
  compact : ∀ a, (read? (c.encode a).compact).bind c.decode = some a
  pretty : ∀ a, (read? (c.encode a).pretty).bind c.decode = some a
  written : ∀ a, Written c a (c.encode a)
  /-- The list of all fields is a way to write the value. -/
  written_list : ∀ a, ∃ items, items.length = keys.length ∧ Written c a (.list items)
  /-- So is the object in another order and with members that are no fields. -/
  written_more : ∀ a members extra members', c.encode a = .object members →
    members'.Perm (members ++ extra) → (∀ key ∈ keys, key ∉ extra.map Prod.fst) →
      Written c a (.object members')
  decode_written : ∀ a j, Written c a j → c.decode j = some a

theorem Codec.IsRecord.restores {keys : List Text} (h : c.IsRecord keys) : c.Restores keys where
  decode_encode a := (h.faithful.written a).decode_eq
  compact a := by
    rw [read?_compact (h.faithful.spelled a)]
    exact (h.faithful.written a).decode_eq
  pretty a := by
    rw [read?_pretty (h.faithful.spelled a)]
    exact (h.faithful.written a).decode_eq
  written := h.faithful.written
  written_list := h.exists_list
  written_more _ _ _ _ := h.written_of_perm
  decode_written _ _ := Written.decode_eq

/-- Schemas, changes and snapshots are restored, whichever of their records are written as lists or
as objects, with fields left out and with keys that nobody knows. -/
theorem restores_codecs : Schema.codec.Restores ["tables"] ∧
    Change.codec.Restores
      ["type", "table", "field", "index", "old_value", "new_value", "description"] ∧
    FileChange.codec.Restores ["file", "table", "action", "content", "notes"] ∧
    Snapshot.codec.Restores ["database", "tables"] :=
  ⟨Schema.isRecord_codec.restores, Change.isRecord_codec.restores,
    FileChange.isRecord_codec.restores, Snapshot.isRecord_codec.restores⟩

/-- A schema whose table has most of its fields as they are when they are absent. -/
def sparse : Schema where
  tables := [{
    name := "t"
    permissions := { select := some "FULL" }
    fields := [{ name := "f", type := "int" }] }]

/-- The schema and its field as lists, the table as an object in another order with an unknown
key. -/
def sparseJson : Json := .list [.list [.object [
  ("note", .null),
  ("fields", .list [.list [.text "f", .text "int", .bool false, .null, .null, .null, .bool false,
    .object []]]),
  ("name", .text "t"),
  ("permissions", .list [.text "FULL", .null, .null, .null])]]]

theorem restores_sparse : Written Schema.codec sparse sparseJson ∧
    Schema.codec.decode sparseJson = some sparse := by
  have ungranted : Written Permissions.codec {} (.object []) :=
    Written.object (b := (none, none, none, none, ())) <|
      .omitted rfl rfl <| .omitted rfl rfl <| .omitted rfl rfl <| .omitted rfl rfl <| .nil []
  have granted : Written Permissions.codec { select := some "FULL" }
      (.list [.text "FULL", .null, .null, .null]) :=
    Written.array (b := (some ("FULL" : Text), none, none, none, ())) <|
      .cons (.present (.text _) nofun) <| .cons (.absent _) <| .cons (.absent _) <|
        .cons (.absent _) .nil
  have field : Written Field.codec { name := "f", type := "int" } (.list [.text "f", .text "int",
      .bool false, .null, .null, .null, .bool false, .object []]) :=
    Written.array (b := (("f" : Text), ("int" : Text), false, none, none, none, false,
        ({} : Permissions), ())) <|
      .cons (.text _) <| .cons (.text _) <| .cons (.bool _) <| .cons (.absent _) <|
        .cons (.absent _) <| .cons (.absent _) <| .cons (.bool _) <| .cons ungranted .nil
  have table : Written Table.codec (sparse.tables.head (by decide)) (.object [("note", .null),
      ("fields",
        .list [.list [.text "f", .text "int", .bool false, .null, .null, .null, .bool false,
          .object []]]), ("name", .text "t"),
      ("permissions", .list [.text "FULL", .null, .null, .null])]) :=
    Written.object (b := (("t" : Text), TableKind.normal, false, true, none,
        ({ select := some "FULL" } : Permissions), [({ name := "f", type := "int" } : Field)], [],
        [], ())) <|
      .given rfl (.text _) <| .omitted rfl rfl <| .omitted rfl rfl <| .omitted rfl rfl <|
        .omitted rfl rfl <| .given rfl granted <| .given rfl (.list (.cons field (.nil _))) <|
          .omitted rfl rfl <| .omitted rfl rfl <| .nil _
  have schema : Written Schema.codec sparse sparseJson :=
    Written.array (b := (sparse.tables, ())) <| .cons (.list (.cons table (.nil _))) .nil
  exact ⟨schema, restores_codecs.1.decode_written sparse sparseJson schema⟩

end SchemaDrift
