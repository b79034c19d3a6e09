import SchemaDrift.Proofs.Reading.Built
import SchemaDrift.Proofs.Statement.Identifiers

namespace SchemaDrift

/-!
# Keys and tables

A database lists the definition of each table under its name. A table is read under the name at the
start of this key, so that a key that is not a name is cut, and of the keys that are cut to the same
name only the last one has a table in the schema.
-/

namespace Snapshot

/-- Whether the definition of each table defines the table of its key. -/
def DefinesKeys (s : Snapshot) : Prop :=
  ∀ e ∈ s.database.tables.entries, Statement.tableIdentifier? e.2 = some e.1

instance (s : Snapshot) : Decidable s.DefinesKeys :=
  inferInstanceAs (Decidable (∀ e ∈ s.database.tables.entries,
    Statement.tableIdentifier? e.2 = some e.1))

end Snapshot

/-- In an ordered list, what is greater than an element stands behind it. -/
theorem mem_of_lt_of_pairwise {α : Type} {l₁ l₂ : List (Text × α)} {e e' : Text × α}
    (h : (l₁ ++ e :: l₂).Pairwise (·.1 < ·.1)) (he' : e' ∈ l₁ ++ e :: l₂) (hlt : e.1 < e'.1) :
    e' ∈ l₂ := by
  obtain ⟨-, -, hcross⟩ := List.pairwise_append.mp h
  rcases List.mem_append.mp he' with he' | he'
  · exact absurd (hcross e' he' e List.mem_cons_self) (List.lt_asymm hlt)
  · rcases List.mem_cons.mp he' with rfl | he'
    · exact absurd hlt (List.lt_irrefl _)
    · exact he'

namespace Client

variable {client : Client} {e : Text × Text} {t : Table}

/-- The name of the table that is read under a key is what is taken of the key. -/
theorem nameOf_tableFor? (hkeys : client.snapshot.DefinesKeys) (he : e ∈ client.tableEntries)
    (h : client.tableFor? e = some t) : NameOf t.name e.1 := by
  obtain ⟨-, header, info, hheader, -, rfl⟩ := exists_of_tableFor? h
  obtain ⟨w, hw, hof⟩ := Statement.exists_tableIdentifier? hheader
  rw [hkeys e he] at hw
  rwa [Option.some.inj hw, Reading.name_foldl_addTo]

/-- The tables of the schema are those of the last keys with their name. -/
theorem mem_tables_reading_iff : t ∈ client.reading.schema.tables ↔
    ∃ e ∈ client.tableEntries, client.tableFor? e = some t ∧
      ∀ e' ∈ client.tableEntries, e.1 < e'.1 → ∀ t' ∈ client.tableFor? e', t'.name ≠ t.name := by
  have names := client.built_reading.namedApart.names
  have found : t ∈ client.reading.schema.tables ↔
      (client.tableEntries.filterMap client.tableFor?).reverse.find? (·.name == t.name) =
        some t := by
    rw [← Schema.table?_ofTables]
    exact ⟨find?_key_of_mem names, fun h => (find?_key_eq_some h).1⟩
  have ordered : client.tableEntries.Pairwise (·.1 < ·.1) :=
    client.snapshot.database.tables.increasing
  rw [found, List.find?_eq_some_iff_append]
  constructor
  · rintro ⟨-, later, earlier, hsplit, hlater⟩
    have hsplit' : client.tableEntries.filterMap client.tableFor? =
        earlier.reverse ++ t :: later.reverse := by
      rw [← List.reverse_reverse (client.tableEntries.filterMap _), hsplit]
      simp
    obtain ⟨before, rest, hentries, -, hrest⟩ := List.filterMap_eq_append_iff.mp hsplit'
    obtain ⟨skipped, e, after, rfl, -, he, hafter⟩ := List.filterMap_eq_cons_iff.mp hrest
    rw [hentries, ← List.append_assoc] at ordered ⊢
    refine ⟨e, by simp, he, fun e' he' hlt t' ht' => ?_⟩
    have behind : e' ∈ after := mem_of_lt_of_pairwise ordered he' hlt
    have mem : t' ∈ after.filterMap client.tableFor? := List.mem_filterMap.mpr ⟨e', behind, ht'⟩
    rw [hafter, List.mem_reverse] at mem
    simpa using hlater t' mem
  · rintro ⟨e, he, ht, hlast⟩
    obtain ⟨before, after, hentries⟩ := List.append_of_mem he
    rw [hentries] at ordered hlast ⊢
    refine ⟨beq_self_eq_true _, (after.filterMap client.tableFor?).reverse,
      (before.filterMap client.tableFor?).reverse, ?_, fun t' ht' => ?_⟩
    · rw [List.filterMap_append, List.filterMap_cons_some ht]
      simp
    · obtain ⟨e', he', ht'⟩ := List.mem_filterMap.mp (List.mem_reverse.mp ht')
      have hlt : e.1 < e'.1 :=
        List.rel_of_pairwise_cons (List.pairwise_append.mp ordered).2.1 he'
      simpa using hlast e' (List.mem_append_right _ (List.mem_cons_of_mem e he')) hlt t' ht'

theorem name_mem_tables_reading (he : e ∈ client.tableEntries) (h : client.tableFor? e = some t) :
    t.name ∈ client.reading.schema.tables.map Table.name := by
  refine find?_key_isSome_iff.mp (table?_reading_isSome_iff.mpr (definesTable_iff.mpr ⟨t, ?_, rfl⟩))
  exact List.mem_filterMap.mpr ⟨e, he, h⟩

/-- If all keys are names, no table takes the place of another one. -/
theorem map_name_tables_reading (hkeys : client.snapshot.DefinesKeys)
    (hnames : ∀ e ∈ client.tableEntries, IsName e.1) :
    client.reading.schema.tables.map Table.name =
      (client.tableEntries.filter fun e => (client.tableFor? e).isSome).map Prod.fst := by
  have names : (client.tableEntries.filterMap client.tableFor?).map Table.name =
      (client.tableEntries.filter fun e => (client.tableFor? e).isSome).map Prod.fst := by
    rw [List.map_filterMap, ← List.filterMap_eq_map, List.filterMap_filter]
    refine List.filterMap_congr fun e he => ?_
    cases h : client.tableFor? e with
    | none => rfl
    | some t => exact congrArg some ((nameOf_tableFor? hkeys he h).whole.mpr (hnames e he))
  have distinct : ((client.tableEntries.filterMap client.tableFor?).map Table.name).Nodup := by
    rw [names]
    exact client.snapshot.database.tables.nodup_keys.sublist (List.filter_sublist.map Prod.fst)
  rw [reading, Schema.ofTables_of_nodup distinct, names]

/-- The name of a table that is read, and of the table of a member, is the name at the start of the
identifier in the statement, and the whole of it just if it is a name. A key of a database whose
definition is about this key is warned about or read under such a name, and then its table is in the
schema unless a later key is read under the same one. If all keys are names, the schema has a table
for each of them that is not skipped. -/
theorem exists_nameOf_key (client : Client) :
    (∀ s t, Statement.readTable s = .ok t →
      ∃ w, Statement.tableIdentifier? s = some w ∧ NameOf t.name w) ∧
    (∀ s noun n, Statement.target? s = some (noun, n) →
      ∃ w, Statement.ownerIdentifier? s = some w ∧ NameOf n w) ∧
    (client.fails .database = false → client.snapshot.DefinesKeys →
      ∃ r, client.introspect = .ok r ∧
        (∀ e ∈ client.tableEntries, (∃ w ∈ r.warnings, w.subject = "table " ++ e.1) ∨
          ∃ t, client.tableFor? e = some t ∧ NameOf t.name e.1 ∧
            t.name ∈ r.schema.tables.map Table.name) ∧
        (∀ t, t ∈ r.schema.tables ↔
          ∃ e ∈ client.tableEntries, client.tableFor? e = some t ∧
            ∀ e' ∈ client.tableEntries, e.1 < e'.1 →
              ∀ t' ∈ client.tableFor? e', t'.name ≠ t.name) ∧
        ((∀ e ∈ client.tableEntries, IsName e.1) → r.schema.tables.map Table.name =
          (client.tableEntries.filter fun e => (client.tableFor? e).isSome).map Prod.fst)) := by
  refine ⟨fun s t => Statement.exists_tableIdentifier?,
    fun s noun n => Statement.exists_ownerIdentifier?, fun hdatabase hkeys => ?_⟩
  refine ⟨client.reading, ?_, fun e he => ?_, fun t => mem_tables_reading_iff,
    map_name_tables_reading hkeys⟩
  · rw [introspect_eq, hdatabase]
    rfl
  · by_cases h : client.Skips e
    · obtain ⟨w, hw, hsubject, -⟩ := exists_warning_of_skips he h
      exact .inl ⟨w, hw, hsubject⟩
    · obtain ⟨t, info, -, -, hread⟩ := exists_of_not_skips h
      exact .inr ⟨_, hread, nameOf_tableFor? hkeys he hread, name_mem_tables_reading he hread⟩

/-- A database that does not answer for one of its tables. -/
def posts : Client where
  snapshot.database.tables := .ofList [("lost", "DEFINE TABLE lost"),
    ("post", "DEFINE TABLE \x60post\x60 SCHEMAFULL")]
  snapshot.tables := .ofList [("post", {})]

theorem exists_nameOf_key_posts :
    (∃ t, Statement.readTable "DEFINE TABLE lost" = .ok t ∧
      ∃ w, Statement.tableIdentifier? "DEFINE TABLE lost" = some w ∧ NameOf t.name w) ∧
    (Statement.target? "DEFINE FIELD x ON my-table" = some (Noun.field, ("my" : Text)) ∧
      ∃ w, Statement.ownerIdentifier? "DEFINE FIELD x ON my-table" = some w ∧ NameOf "my" w) ∧
    posts.fails .database = false ∧ posts.snapshot.DefinesKeys ∧
      (∀ e ∈ posts.tableEntries, IsName e.1) ∧
      ∃ r, posts.introspect = .ok r ∧ r.schema.tables.map Table.name = [("post" : Text)] := by
  obtain ⟨table, owner, keys⟩ := exists_nameOf_key posts
  have read : Statement.readTable "DEFINE TABLE lost" = .ok { name := "lost" } := by decide +kernel
  have target : Statement.target? "DEFINE FIELD x ON my-table" =
      some (Noun.field, ("my" : Text)) := by
    decide +kernel
  have defines : posts.snapshot.DefinesKeys := by decide +kernel
  have names : ∀ e ∈ posts.tableEntries, IsName e.1 := by decide
  have kept : (posts.tableEntries.filter fun e => (posts.tableFor? e).isSome).map Prod.fst =
      [("post" : Text)] := by
    decide +kernel
  obtain ⟨r, hr, -, -, hnames⟩ := keys rfl defines
  exact ⟨⟨_, read, table _ _ read⟩, ⟨target, owner _ _ _ target⟩, rfl, defines, names, r, hr,
    (hnames names).trans kept⟩

/-- A database with two tables of which the name of one starts with that of the other one. -/
def hyphened : Client where
  snapshot.database.tables := .ofList [("my", "DEFINE TABLE my SCHEMAFULL"),
    ("my-table", "DEFINE TABLE \x60my-table\x60 SCHEMALESS")]
  snapshot.tables := .ofList [("my", {}), ("my-table", {})]

/-- The table of a key can be lost without a warning. -/
theorem not_table_of_key :
    ¬∀ client : Client, client.fails .database = false → client.snapshot.DefinesKeys →
      ∃ r, client.introspect = .ok r ∧
        ∀ e ∈ client.tableEntries, (∃ w ∈ r.warnings, w.subject = "table " ++ e.1) ∨
          ∃ t ∈ r.schema.tables, t.name = e.1 := by
  intro h
  have defines : hyphened.snapshot.DefinesKeys := by decide +kernel
  obtain ⟨r, hr, hkeys⟩ := h hyphened rfl defines
  have read : hyphened.introspect = .ok hyphened.reading := rfl
  obtain rfl := Except.ok.inj (read.symm.trans hr)
  have silent : hyphened.reading.warnings = [] := by decide +kernel
  have names : hyphened.reading.schema.tables.map Table.name = [("my" : Text)] := by
    decide +kernel
  rcases hkeys ("my-table", "DEFINE TABLE \x60my-table\x60 SCHEMALESS") (by decide) with
    ⟨w, hw, -⟩ | ⟨t, ht, hname⟩
  · rw [silent] at hw
    cases hw
  · have mem : t.name ∈ hyphened.reading.schema.tables.map Table.name := List.mem_map_of_mem ht
    rw [names, List.mem_singleton, hname] at mem
    exact absurd mem (by decide)

end Client

end SchemaDrift
