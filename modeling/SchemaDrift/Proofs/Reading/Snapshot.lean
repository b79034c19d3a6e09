import SchemaDrift.Proofs.Reading.Introspection
import SchemaDrift.Proofs.Reading.Strict
import SchemaDrift.Proofs.Statement.Nouns

namespace SchemaDrift

/-!
# Databases and scripts

A script of the statements of a database is read as the database is. Members stand behind their
table in both, and a table that is not read takes its members along.
-/

theorem Dict.mem_entries_of_get? {α : Type} {d : Dict α} {k : Text} {v : α}
    (h : d.get? k = some v) : (k, v) ∈ d.entries := by
  obtain ⟨e, he, rfl⟩ := Option.map_eq_some_iff.mp h
  obtain ⟨hmem, rfl⟩ := find?_key_eq_some he
  exact hmem

namespace Script

/-! ## Scripts of closed statements -/

theorem successes_map_read {β : Type} (f : Definition → Option β) (ss : List Text) :
    (successes (ss.map Definition.read)).filterMap f =
      ss.filterMap fun s => (Definition.read s).toOption.bind f := by
  rw [successes, List.filterMap_map, List.filterMap_filterMap]
  rfl

theorem tablesIn_eq (ss : List Text) : tablesIn ss = ss.filterMap Statement.table? := by
  rw [tablesIn, successes_map_read]
  exact congrArg (ss.filterMap ·) (funext Definition.bind_table?_read)

theorem membersIn_eq (ss : List Text) : membersIn ss = ss.filterMap Statement.member? :=
  successes_map_read Definition.member? ss

/-- Trimming the statements and leaving out blank ones changes nothing in what they define. -/
theorem filterMap_statementsIn {β : Type} {f : Text → Option β}
    (htrim : ∀ s, f (Text.trim s) = f s) (hnil : f [] = none) (ss : List Text) :
    (statementsIn ss).filterMap f = ss.filterMap f := by
  induction ss with
  | nil => rfl
  | cons s ss ih =>
    have single : (statementsIn [s]).filterMap f = [s].filterMap f := by
      rw [List.filterMap_cons, ← htrim s]
      cases hs : Text.trim s with
      | nil => simp [statementsIn, hs, hnil]
      | cons c cs => simp [statementsIn, hs, List.filterMap_cons]
    rw [statementsIn_cons, List.filterMap_append, single, ih, ← List.filterMap_append]
    rfl

theorem schemaOf_statementsIn (ss : List Text) : schemaOf (statementsIn ss) = schemaOf ss := by
  have tables : tablesIn (statementsIn ss) = tablesIn ss := by
    rw [tablesIn_eq, tablesIn_eq]
    refine filterMap_statementsIn (fun s => ?_) rfl ss
    rw [Statement.table?, Statement.readTable_trim, Statement.table?]
  have members : membersIn (statementsIn ss) = membersIn ss := by
    rw [membersIn_eq, membersIn_eq]
    refine filterMap_statementsIn (fun s => ?_) rfl ss
    rw [Statement.member?, Definition.read_trim, Statement.member?]
  rw [schemaOf, members, tables, schemaOf]

/-- A script of closed statements is read as the statements are. -/
theorem schema_read_join {ss : List Text} (h : ∀ s ∈ ss, Closed s) :
    (read (Text.join ";\n" ss)).schema = schemaOf ss := by
  rw [read_eq, statements_join_of_closed h]
  exact schemaOf_statementsIn ss

/-- The schema of statements whose tables have names of their own. -/
theorem schemaOf_eq {ss : List Text} (hn : ((tablesIn ss).map Table.name).Nodup) :
    schemaOf ss = ⟨(tablesIn ss).map fun t =>
      (((membersIn ss).filter (t.name == ·.1)).map Prod.snd).foldl Member.addTo t⟩ := by
  rw [schemaOf, Schema.ofTables_of_nodup hn, Schema.foldl_addMember hn]
  congr 1
  refine List.map_congr_left fun t ht => ?_
  have own : ((membersIn ss).filter (Schema.hasTableOf ⟨tablesIn ss⟩)).filter (t.name == ·.1) =
      (membersIn ss).filter (t.name == ·.1) := by
    rw [List.filter_filter]
    refine List.filter_congr fun m _ => ?_
    cases hm : t.name == m.1 with
    | false => rfl
    | true =>
      have there : Schema.hasTableOf ⟨tablesIn ss⟩ m = true :=
        find?_key_isSome_iff.mpr (eq_of_beq hm ▸ List.mem_map_of_mem ht)
      rw [there]
      rfl
  rw [own]

end Script

/-! ## Scripts of databases -/

namespace Statement

/-- Whether a statement has the noun of a member and, if it defines one, is about this table. -/
structure IsFor (noun : Noun) (table s : Text) : Prop where
  noun : HasNoun noun s
  owner : ∀ m ∈ member? s, m.1 = table

instance (noun : Noun) (table s : Text) : Decidable (IsFor noun table s) :=
  decidable_of_iff (HasNoun noun s ∧ ∀ m ∈ member? s, m.1 = table)
    ⟨fun h => ⟨h.1, h.2⟩, fun h => ⟨h.1, h.2⟩⟩

theorem IsFor.member?_eq {noun : Noun} {table s : Text} (h : IsFor noun table s) :
    member? s = ((member? s).map Prod.snd).map (Prod.mk table) := by
  cases hm : member? s with
  | none => rfl
  | some m =>
    obtain rfl := h.owner m hm
    rfl

end Statement

namespace TableInfo

/-- The statements that define the members of a table. -/
def statements (info : TableInfo) : List Text :=
  info.fields.entries.map Prod.snd ++ info.indexes.entries.map Prod.snd ++
    info.events.entries.map Prod.snd

/-- Whether every statement of a table is about it and stands among those of its kind. -/
structure IsFor (table : Text) (info : TableInfo) : Prop where
  fields : ∀ e ∈ info.fields.entries, Statement.IsFor .field table e.2
  indexes : ∀ e ∈ info.indexes.entries, Statement.IsFor .index table e.2
  events : ∀ e ∈ info.events.entries, Statement.IsFor .event table e.2

instance (table : Text) (info : TableInfo) : Decidable (info.IsFor table) :=
  decidable_of_iff ((∀ e ∈ info.fields.entries, Statement.IsFor .field table e.2) ∧
      (∀ e ∈ info.indexes.entries, Statement.IsFor .index table e.2) ∧
      ∀ e ∈ info.events.entries, Statement.IsFor .event table e.2)
    ⟨fun h => ⟨h.1, h.2.1, h.2.2⟩, fun h => ⟨h.fields, h.indexes, h.events⟩⟩

theorem filterMap_member? {noun : Noun} {read : Text → Except Fault Member} {table : Text}
    {ds : Dict Text} (h : ∀ e ∈ ds.entries, Statement.IsFor noun table e.2)
    (hread : ∀ s, Statement.HasNoun noun s →
      (Statement.member? s).map Prod.snd = (read s).toOption) :
    (ds.entries.map Prod.snd).filterMap Statement.member? =
      (Reading.members read ds).map (Prod.mk table) := by
  rw [Reading.members, List.map_filterMap, List.filterMap_map]
  refine List.filterMap_congr fun e he => ?_
  rw [Function.comp_apply, (h e he).member?_eq, hread e.2 (h e he).noun]

theorem membersIn_statements {info : TableInfo} {table : Text} (h : info.IsFor table) :
    Script.membersIn info.statements = info.members.map (Prod.mk table) := by
  rw [Script.membersIn_eq, statements, List.filterMap_append, List.filterMap_append,
    filterMap_member? h.fields fun _ => Statement.HasNoun.map_member?_field,
    filterMap_member? h.indexes fun _ => Statement.HasNoun.map_member?_index,
    filterMap_member? h.events fun _ => Statement.HasNoun.map_member?_event, members,
    List.map_append, List.map_append]

theorem tablesIn_statements {info : TableInfo} {table : Text} (h : info.IsFor table) :
    Script.tablesIn info.statements = [] := by
  rw [Script.tablesIn_eq]
  refine List.filterMap_eq_nil_iff.mpr fun s hs => ?_
  have none {noun : Noun} (hne : noun ≠ .table) {ds : Dict Text}
      (h : ∀ e ∈ ds.entries, Statement.IsFor noun table e.2) (hs : s ∈ ds.entries.map Prod.snd) :
      Statement.table? s = none := by
    obtain ⟨e, he, rfl⟩ := List.mem_map.mp hs
    exact (h e he).noun.table?_eq_none hne
  rcases List.mem_append.mp hs with hs | hs
  · rcases List.mem_append.mp hs with hs | hs
    · exact none (by decide) h.fields hs
    · exact none (by decide) h.indexes hs
  · exact none (by decide) h.events hs

end TableInfo

namespace Snapshot

/-- The statement that is listed for a table, and those that are listed for its members. -/
def statementsOf (s : Snapshot) (e : Text × Text) : List Text :=
  e.2 :: ((s.tables.get? e.1).map TableInfo.statements).getD []

/-- The statements that define the tables of a database, each before those of its members. -/
def statements (s : Snapshot) : List Text := s.database.tables.entries.flatMap s.statementsOf

def script (s : Snapshot) : Text := Text.join ";\n" s.statements

/-- Whether the statements of a database are closed and about the tables they are listed under. -/
structure WellKept (s : Snapshot) : Prop where
  closed : ∀ t ∈ s.statements, t ≠ [] ∧ Script.Closed t
  tables : ∀ e ∈ s.database.tables.entries, ∀ t ∈ Statement.table? e.2,
    t.name = e.1 ∧ (s.tables.get? e.1).isSome = true
  members : ∀ e ∈ s.tables.entries, e.2.IsFor e.1

instance (s : Snapshot) : Decidable s.WellKept :=
  decidable_of_iff ((∀ t ∈ s.statements, t ≠ [] ∧ Script.Closed t) ∧
      (∀ e ∈ s.database.tables.entries, ∀ t ∈ Statement.table? e.2,
        t.name = e.1 ∧ (s.tables.get? e.1).isSome = true) ∧
      ∀ e ∈ s.tables.entries, e.2.IsFor e.1)
    ⟨fun h => ⟨h.1, h.2.1, h.2.2⟩, fun h => ⟨h.closed, h.tables, h.members⟩⟩

/-- Whether no statement that is listed as one of a table defines a member of a table that is read.
-/
def KeepsApart (s : Snapshot) : Prop :=
  ∀ e ∈ s.database.tables.entries, ∀ m ∈ Statement.member? e.2,
    ∀ e' ∈ s.database.tables.entries, ∀ t ∈ Statement.table? e'.2, t.name ≠ m.1

instance (s : Snapshot) : Decidable s.KeepsApart :=
  inferInstanceAs (Decidable (∀ e ∈ s.database.tables.entries, ∀ m ∈ Statement.member? e.2,
    ∀ e' ∈ s.database.tables.entries, ∀ t ∈ Statement.table? e'.2, t.name ≠ m.1))

/-- The members that are listed under the name of a table. -/
def membersOf (s : Snapshot) (table : Text) : List Member :=
  ((s.tables.get? table).map TableInfo.members).getD []

variable {s : Snapshot}

theorem WellKept.isFor (h : s.WellKept) {table : Text} {info : TableInfo}
    (hinfo : s.tables.get? table = some info) : info.IsFor table :=
  h.members _ (Dict.mem_entries_of_get? hinfo)

theorem WellKept.tablesIn_statementsOf (h : s.WellKept) (e : Text × Text) :
    Script.tablesIn (s.statementsOf e) = (Statement.table? e.2).toList := by
  have rest : Script.tablesIn (((s.tables.get? e.1).map TableInfo.statements).getD []) = [] := by
    cases hinfo : s.tables.get? e.1 with
    | none => rfl
    | some info => exact TableInfo.tablesIn_statements (h.isFor hinfo)
  rw [Script.tablesIn_eq] at rest ⊢
  rw [statementsOf, List.filterMap_cons, rest]
  cases Statement.table? e.2 <;> rfl

theorem WellKept.membersIn_statementsOf (h : s.WellKept) (e : Text × Text) :
    Script.membersIn (s.statementsOf e) =
      (Statement.member? e.2).toList ++ (s.membersOf e.1).map (Prod.mk e.1) := by
  have rest : Script.membersIn (((s.tables.get? e.1).map TableInfo.statements).getD []) =
      (s.membersOf e.1).map (Prod.mk e.1) := by
    rw [membersOf]
    cases hinfo : s.tables.get? e.1 with
    | none => rfl
    | some info => exact TableInfo.membersIn_statements (h.isFor hinfo)
  rw [Script.membersIn_eq] at rest ⊢
  rw [statementsOf, List.filterMap_cons, rest]
  cases Statement.member? e.2 <;> rfl

theorem WellKept.tablesIn_eq (h : s.WellKept) : Script.tablesIn s.statements =
    s.database.tables.entries.filterMap fun e => Statement.table? e.2 := by
  rw [Script.tablesIn_eq, statements, List.filterMap_flatMap, List.filterMap_eq_flatMap_toList]
  refine List.flatMap_congr fun e _ => ?_
  rw [← h.tablesIn_statementsOf, Script.tablesIn_eq]

theorem WellKept.nodup_names (h : s.WellKept) :
    ((Script.tablesIn s.statements).map Table.name).Nodup := by
  rw [h.tablesIn_eq, List.map_filterMap]
  refine List.Nodup.sublist (filterMap_sublist_map fun e he k hk => ?_) s.database.tables.nodup_keys
  obtain ⟨t, ht, rfl⟩ := Option.map_eq_some_iff.mp hk
  exact (h.tables e he t ht).1

/-- The members of a table that is read are those that are listed for it. -/
theorem WellKept.membersIn_filter (h : s.WellKept) (hapart : s.KeepsApart) {e : Text × Text}
    (he : e ∈ s.database.tables.entries) {t : Table} (ht : Statement.table? e.2 = some t) :
    (Script.membersIn s.statements).filter (t.name == ·.1) =
      (s.membersOf e.1).map (Prod.mk e.1) := by
  have name := (h.tables e he t ht).1
  have each (e' : Text × Text) (he' : e' ∈ s.database.tables.entries) :
      (Script.membersIn (s.statementsOf e')).filter (t.name == ·.1) =
        if e'.1 = e.1 then (s.membersOf e'.1).map (Prod.mk e'.1) else [] := by
    have own : (Statement.member? e'.2).toList.filter (t.name == ·.1) = [] := by
      refine List.filter_eq_nil_iff.mpr fun m hm => ?_
      have := hapart e' he' m (Option.mem_toList.mp hm) e he t ht
      simpa using this
    rw [h.membersIn_statementsOf, List.filter_append, own, List.nil_append]
    split
    · rename_i heq
      refine List.filter_eq_self.mpr fun m hm => ?_
      obtain ⟨m, -, rfl⟩ := List.mem_map.mp hm
      simp [name, heq]
    · rename_i hne
      refine List.filter_eq_nil_iff.mpr fun m hm => ?_
      obtain ⟨m, -, rfl⟩ := List.mem_map.mp hm
      simpa [name] using Ne.symm hne
  have all : (Script.membersIn s.statements).filter (t.name == ·.1) =
      s.database.tables.entries.flatMap fun e' =>
        (Script.membersIn (s.statementsOf e')).filter (t.name == ·.1) := by
    rw [Script.membersIn_eq, statements, List.filterMap_flatMap, List.filter_flatMap]
    exact List.flatMap_congr fun e' _ => by rw [Script.membersIn_eq]
  rw [all, flatMap_eq_of_nodup s.database.tables.nodup_keys he, each e he, if_pos rfl]
  intro e' he' hne
  rw [each e' he', if_neg hne]

/-- What introspection makes of an entry is its table with the members that are listed for it. -/
theorem WellKept.tableFor?_eq (h : s.WellKept) {e : Text × Text}
    (he : e ∈ s.database.tables.entries) : Client.tableFor? { snapshot := s } e =
      (Statement.table? e.2).map fun t => (s.membersOf e.1).foldl Member.addTo t := by
  rw [Client.tableFor?]
  cases ht : Statement.table? e.2 with
  | none =>
    rw [Statement.table?] at ht
    rw [ht]
    rfl
  | some t =>
    obtain ⟨name, listed⟩ := h.tables e he t ht
    obtain ⟨info, hinfo⟩ := Option.isSome_iff_exists.mp listed
    have answered : (Client.table { snapshot := s } t.name).toOption = some info := by
      rw [name, Client.table, Client.answer, hinfo]
      rfl
    rw [Statement.table?] at ht
    rw [ht, Option.bind_some, answered, membersOf, hinfo]
    rfl

/-- A database whose statements are well kept is read as the script of its statements is. -/
theorem introspect_eq_read_script (h : s.WellKept) (hapart : s.KeepsApart) :
    ∃ r, Client.introspect { snapshot := s } = .ok r ∧
      r.schema = (Script.read s.script).schema := by
  have read : Client.introspect { snapshot := s } = .ok (Client.reading { snapshot := s }) := by
    rw [Client.introspect_eq]
    exact if_neg Bool.false_ne_true
  refine ⟨_, read, ?_⟩
  -- Both schemas have the entries that are read, in the order of the keys.
  have found : s.database.tables.entries.filterMap (Client.tableFor? { snapshot := s }) =
      (Script.tablesIn s.statements).map fun t =>
        (((Script.membersIn s.statements).filter (t.name == ·.1)).map Prod.snd).foldl
          Member.addTo t := by
    rw [h.tablesIn_eq, List.map_filterMap]
    refine List.filterMap_congr fun e he => ?_
    rw [h.tableFor?_eq he]
    cases ht : Statement.table? e.2 with
    | none => rfl
    | some t =>
      rw [Option.map_some, Option.map_some, h.membersIn_filter hapart he ht, List.map_map]
      exact congrArg (fun ms => some (ms.foldl Member.addTo t)) (List.map_id _).symm
  have names : ((s.database.tables.entries.filterMap
      (Client.tableFor? { snapshot := s })).map Table.name).Nodup := by
    rw [found, List.map_map]
    refine Eq.mpr (congrArg List.Nodup (List.map_congr_left fun t _ => ?_)) h.nodup_names
    exact Reading.name_foldl_addTo _ t
  calc (Client.reading { snapshot := s }).schema
      = ⟨s.database.tables.entries.filterMap (Client.tableFor? { snapshot := s })⟩ :=
        Schema.ofTables_of_nodup names
    _ = Script.schemaOf s.statements := by rw [found, Script.schemaOf_eq h.nodup_names]
    _ = (Script.read s.script).schema :=
        (Script.schema_read_join fun t ht => (h.closed t ht).2).symm

/-- A database with a table and a member that are not read. -/
def blog : Snapshot where
  database.tables := .ofList
    [("draft", "DEFINE TABLE ?"), ("post", "DEFINE TABLE post TYPE NORMAL SCHEMAFULL ")]
  tables := .ofList
    [("draft", { fields := .ofList [("text", "DEFINE FIELD text ON draft TYPE string")] }),
      ("post", {
        fields := .ofList [("title", " DEFINE FIELD title ON TABLE post TYPE string DEFAULT 'a;b'")]
        indexes := .ofList [("all", "DEFINE INDEX all ON post"),
          ("title", "DEFINE INDEX title ON post FIELDS title UNIQUE")] })]

theorem introspect_eq_read_script_blog : blog.WellKept ∧ blog.KeepsApart ∧
    ∃ r, Client.introspect { snapshot := blog } = .ok r ∧
      r.schema = (Script.read blog.script).schema := by
  have kept : blog.WellKept := by decide +kernel
  have apart : blog.KeepsApart := by decide +kernel
  exact ⟨kept, apart, introspect_eq_read_script kept apart⟩

/-- A database that lists a field of one table as the definition of another. Introspection skips it,
and in the script it is a field of its table. -/
def misfiled : Snapshot where
  database.tables := .ofList
    [("foo", "DEFINE FIELD x ON TABLE post TYPE int"), ("post", "DEFINE TABLE post")]
  tables := .ofList [("post", {})]

theorem not_introspect_eq_read_script : ¬∀ s : Snapshot, s.WellKept →
    ∃ r, Client.introspect { snapshot := s } = .ok r ∧
      r.schema = (Script.read s.script).schema := by
  intro h
  have kept : misfiled.WellKept := by decide +kernel
  obtain ⟨r, hr, hschema⟩ := h misfiled kept
  have read : Client.introspect { snapshot := misfiled } =
      .ok (Client.reading { snapshot := misfiled }) := rfl
  obtain rfl := Except.ok.inj (read.symm.trans hr)
  exact absurd hschema (by decide +kernel)

end Snapshot

end SchemaDrift
