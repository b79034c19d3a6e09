import SchemaDrift.Plan.Basic
import SchemaDrift.Proofs.Merge.Removal
import SchemaDrift.Proofs.Reading.Introspection

namespace SchemaDrift

/-!
# What failed introspection leads to

Plans and migrations are made from the schema alone, and what introspection skipped is not in it. So
what was skipped counts as absent, unless another definition stands for it.
-/

namespace Source

theorem tableOf?_fileOf (t : Text) :
    tableOf? (fileOf t) = if t = "mod" ∨ t = [] then none else some t := by
  have index : fileOf t = indexFile ↔ t = "mod" := by
    have split : indexFile = ("mod" : Text) ++ ".rs" := rfl
    rw [fileOf, split, List.append_left_inj]
  have strip : Text.stripEnd ".rs" (fileOf t) = some t := Text.stripEnd_eq_some_iff.mpr rfl
  rw [tableOf?, strip]
  by_cases hmod : t = "mod"
  · rw [if_pos (index.mpr hmod), if_pos (.inl hmod)]
  · rw [if_neg (mt index.mp hmod)]
    by_cases hnil : t = []
    · rw [if_pos (.inr hnil), hnil]
      rfl
    · rw [if_neg (not_or.mpr ⟨hmod, hnil⟩)]
      simp [hnil]

end Source

namespace Plan

variable {schema : Schema} {existing : Dict Text} {code : Option Schema} {options : PlanOptions}

theorem action_ne_delete {markers : Merge.Markers} {t : Table} {c : FileChange}
    (h : tableChange? existing code markers t = some c) : c.action ≠ .delete := by
  unfold tableChange? at h
  dsimp only at h
  split at h
  · cases h
    exact FileAction.noConfusion
  · split at h
    · cases h
    · split at h
      · cases h
        exact FileAction.noConfusion
      · split at h
        · cases h
        · cases h
          exact FileAction.noConfusion

theorem action_of_indexChange? {c : FileChange} (h : indexChange? schema existing = some c) :
    c.action = .create ∨ c.action = .update := by
  unfold indexChange? at h
  dsimp only at h
  split at h
  · cases h
    exact .inl rfl
  · split at h
    · cases h
    · cases h
      exact .inr rfl

theorem of_deletion? {file : Text} {c : FileChange} (h : deletion? schema file = some c) :
    c.action = .delete ∧ c.file = file ∧
      ∃ table, Source.tableOf? file = some table ∧ schema.table? table = none := by
  unfold deletion? at h
  split at h
  · cases h
  · rename_i table htable
    split at h
    · cases h
    · rename_i hnone
      cases h
      exact ⟨rfl, rfl, table, htable, Option.not_isSome_iff_eq_none.mp hnone⟩

theorem mem_plan {c : FileChange} : c ∈ plan schema existing code options ↔
    (∃ t ∈ schema.tables, tableChange? existing code options.markers t = some c) ∨
      (∃ file ∈ existing.keys, deletion? schema file = some c) ∨
        (options.index = true ∧ indexChange? schema existing = some c) := by
  rw [plan, List.mem_append, List.mem_append, List.mem_filterMap, List.mem_filterMap, or_assoc]
  apply or_congr Iff.rfl
  apply or_congr Iff.rfl
  split
  · rename_i h
    simp [h]
  · rename_i h
    simp [h]

/-- A file is deleted if it is the file of a table that the schema does not have. -/
theorem exists_delete_iff {file : Text} :
    (∃ c ∈ plan schema existing code options, c.action = .delete ∧ c.file = file) ↔
      file ∈ existing.keys ∧
        ∃ table, Source.tableOf? file = some table ∧ schema.table? table = none := by
  constructor
  · rintro ⟨c, hc, hdelete, rfl⟩
    rcases mem_plan.mp hc with ⟨t, -, ht⟩ | ⟨file, hfile, hdel⟩ | ⟨-, hindex⟩
    · exact absurd hdelete (action_ne_delete ht)
    · obtain ⟨-, rfl, habsent⟩ := of_deletion? hdel
      exact ⟨hfile, habsent⟩
    · rcases action_of_indexChange? hindex with h | h
      · rw [hdelete] at h
        cases h
      · rw [hdelete] at h
        cases h
  · rintro ⟨hfile, table, htable, hnone⟩
    have deleted : deletion? schema file = some { file, table, action := .delete } := by
      rw [deletion?, htable]
      dsimp only
      rw [hnone]
      rfl
    exact ⟨_, mem_plan.mpr (.inr (.inl ⟨file, hfile, deleted⟩)), rfl, rfl⟩

/-- A table is merged into the existing file of the table that the code declares. -/
theorem of_mem_plan_merge {c : FileChange} (hc : c ∈ plan schema existing code options)
    (h : c.action = .merge) : ∃ t ∈ schema.tables, ∃ current declared,
      existing.get? (Source.fileOf t.name) = some current ∧
        code.bind (·.table? t.name) = some declared ∧
          c = mergeChange options.markers current t declared := by
  rcases mem_plan.mp hc with ⟨t, htm, ht⟩ | ⟨file, -, hdel⟩ | ⟨-, hindex⟩
  · refine ⟨t, htm, ?_⟩
    unfold tableChange? at ht
    dsimp only at ht
    split at ht
    · cases ht
      cases h
    · rename_i current hcurrent
      split at ht
      · cases ht
      · split at ht
        · cases ht
          cases h
        · rename_i declared hdeclared
          split at ht
          · cases ht
          · cases ht
            exact ⟨current, declared, hcurrent, hdeclared, rfl⟩
  · rw [(of_deletion? hdel).1] at h
    cases h
  · rcases action_of_indexChange? hindex with h' | h'
    · rw [h'] at h
      cases h
    · rw [h'] at h
      cases h

end Plan

theorem exists_tableAdded_iff {source target : Schema} {name : Text}
    (h : (source.table? name).isSome = true) :
    (∃ c ∈ source.compare target .push, c.kind = .tableAdded ∧ c.table = name) ↔
      target.table? name = none := by
  constructor
  · rintro ⟨c, hc, hkind, rfl⟩
    rcases Change.mem_compare.mp hc with
      ⟨s, -, hnone, rfl⟩ | ⟨t, -, -, rfl⟩ | ⟨s, -, t, -, d, hd, rfl⟩
    · exact hnone
    · cases hkind
    · exact absurd (show d.kind = .tableAdded from hkind) (Change.kind_ne_tableAdded hd)
  · intro hnone
    obtain ⟨s, hs⟩ := Option.isSome_iff_exists.mp h
    obtain ⟨hsm, rfl⟩ := find?_key_eq_some hs
    exact ⟨_, Change.mem_compare.mpr (.inl ⟨s, hsm, hnone, rfl⟩), rfl, rfl⟩

/-- Whether the declaration is read from the definitions of a table. -/
def TableInfo.Defines (info : TableInfo) : Merge.Part → Prop
  | .field name => info.DefinesField (Path.normal name)
  | .index name => info.DefinesIndex name

theorem TableInfo.heldBy_eq_false_iff {info : TableInfo} {statement : Text} {t : Table}
    (h : Statement.readTable statement = .ok t) {p : Merge.Part} :
    p.heldBy (info.members.foldl Member.addTo t) = false ↔ ¬info.Defines p := by
  rw [← Bool.not_eq_true]
  apply not_congr
  cases p with
  | field name => exact TableInfo.lastFieldAt?_isSome_iff h (Path.normal name)
  | index name => exact TableInfo.index?_isSome_iff h name

namespace Client

/-- The file of a table is deleted just if no definition of the table is read. -/
theorem exists_delete_fileOf_iff {client : Client} {existing : Dict Text} {code : Option Schema}
    {options : PlanOptions} {name : Text} :
    (∃ c ∈ plan client.reading.schema existing code options,
      c.action = .delete ∧ c.file = Source.fileOf name) ↔
      Source.fileOf name ∈ existing.keys ∧ name ≠ [] ∧ name ≠ "mod" ∧
        ¬client.DefinesTable name := by
  rw [Plan.exists_delete_iff, Source.tableOf?_fileOf]
  by_cases hplain : name = "mod" ∨ name = []
  · rw [if_pos hplain]
    rcases hplain with hplain | hplain <;> simp [hplain]
  · rw [if_neg hplain]
    obtain ⟨hmod, hnil⟩ := not_or.mp hplain
    constructor
    · rintro ⟨hfile, table, htable, hnone⟩
      cases htable
      exact ⟨hfile, hnil, hmod, table?_reading_eq_none_iff.mp hnone⟩
    · rintro ⟨hfile, -, -, hundefined⟩
      exact ⟨hfile, name, rfl, table?_reading_eq_none_iff.mpr hundefined⟩

/-- A table of the code is added to the database just if no definition of the table is read. -/
theorem exists_plan_tableAdded_iff {client : Client} (hfails : client.fails .database = false)
    {code : Schema} {name : Text} (hcode : (code.table? name).isSome = true) :
    ∃ m, Migration.plan client code = .ok m ∧
      ((∃ c ∈ m.changes, c.kind = .tableAdded ∧ c.table = name) ↔
        ¬client.DefinesTable name) := by
  obtain ⟨m, hplan, hchanges⟩ := exists_plan_eq_ok hfails code
  refine ⟨m, hplan, ?_⟩
  rw [hchanges, exists_tableAdded_iff hcode, table?_reading_eq_none_iff]

/-- What becomes of what introspection could not read. A database that does not list its definitions
gives no schema and no migration. Otherwise there is a warning about all that is skipped. The file
of a skipped table is deleted, and the table is added again to the database, just if no other
definition of this table is read. A merge comments out a declaration, or says why it does not, just
if no definition of it is read. -/
theorem introspection_failures (client : Client) :
    (client.fails .database = true →
      client.introspect = .error (.database "INFO FOR DB" connectionLost) ∧
        ∀ code, Migration.plan client code = .error (.database "INFO FOR DB" connectionLost)) ∧
    (client.fails .database = false → client.introspect = .ok client.reading ∧
      (∀ e ∈ client.tableEntries, client.Skips e →
        (∃ w ∈ client.reading.warnings, w.subject = "table " ++ e.1 ∧
          (w.kind = .parseFailure ∨ w.kind = .introspectionFailure)) ∧
        (∀ existing code options,
          (∃ c ∈ plan client.reading.schema existing code options,
            c.action = .delete ∧ c.file = Source.fileOf e.1) ↔
            Source.fileOf e.1 ∈ existing.keys ∧ e.1 ≠ [] ∧ e.1 ≠ "mod" ∧
              ¬client.DefinesTable e.1) ∧
        ∀ code : Schema, (code.table? e.1).isSome = true →
          ∃ m, Migration.plan client code = .ok m ∧
            ((∃ c ∈ m.changes, c.kind = .tableAdded ∧ c.table = e.1) ↔
              ¬client.DefinesTable e.1)) ∧
      (∀ e ∈ client.tableEntries, ∀ t info, Statement.readTable e.2 = .ok t →
        client.table t.name = .ok info →
          (∀ d ∈ info.fields.entries, ∀ fault, Statement.readField d.2 = .error fault →
            .parseFailure ("field " ++ e.1 ++ "." ++ d.1) fault ∈ client.reading.warnings) ∧
          ∀ d ∈ info.indexes.entries, ∀ fault, Statement.readIndex d.2 = .error fault →
            .parseFailure ("index " ++ e.1 ++ "." ++ d.1) fault ∈ client.reading.warnings) ∧
      ∀ existing code options, ∀ c ∈ plan client.reading.schema existing code options,
        c.action = .merge →
          ∃ e ∈ client.tableEntries, ∃ t info current declared,
            Statement.readTable e.2 = .ok t ∧ client.table t.name = .ok info ∧
            existing.get? (Source.fileOf t.name) = some current ∧
            code.bind (·.table? t.name) = some declared ∧
            c = Plan.mergeChange options.markers current (info.members.foldl Member.addTo t)
              declared ∧
            (∀ p : Merge.Part, p.DeclaredIn declared → p.isTopLevel = true →
              (p ∈ (merge options.markers current (info.members.foldl Member.addTo t)
                declared).handled ↔ ¬info.Defines p)) ∧
            ∀ p ∈ (merge options.markers current (info.members.foldl Member.addTo t)
              declared).removed, ¬info.Defines p) := by
  constructor
  · intro hfails
    refine ⟨?_, plan_eq_error hfails⟩
    rw [introspect_eq, if_pos hfails]
  intro hfails
  have introspected : client.introspect = .ok client.reading := by
    rw [introspect_eq, if_neg (by simp [hfails])]
  refine ⟨introspected, ?_, ?_, ?_⟩
  · intro e he hskips
    refine ⟨exists_warning_of_skips he hskips, ?_, ?_⟩
    · intro existing code options
      exact exists_delete_fileOf_iff
    · intro code hcode
      exact exists_plan_tableAdded_iff hfails hcode
  · intro e he t info ht hinfo
    constructor
    · intro d hd fault hfault
      exact warnings_of_read he ht hinfo (TableInfo.mem_warnings_of_field hd hfault)
    · intro d hd fault hfault
      exact warnings_of_read he ht hinfo (TableInfo.mem_warnings_of_index hd hfault)
  · intro existing code options c hc hmerge
    obtain ⟨t', htm, current, declared, hcurrent, hdeclared, hchange⟩ :=
      Plan.of_mem_plan_merge hc hmerge
    obtain ⟨e, he, t, info, ht, hinfo, rfl⟩ := exists_of_mem_reading htm
    rw [Reading.name_foldl_addTo] at hcurrent hdeclared
    refine ⟨e, he, t, info, current, declared, ht, hinfo, hcurrent, hdeclared, hchange, ?_, ?_⟩
    · intro p hp htop
      rw [Merge.mem_handled_merge_iff hp htop, TableInfo.heldBy_eq_false_iff ht]
    · intro p hp
      rw [← TableInfo.heldBy_eq_false_iff ht]
      exact (Merge.of_mem_removed_merge hp).2.2

/-- The definition of a table that the database does not answer for. -/
def unanswered : Text × Text := ("post", "DEFINE TABLE post SCHEMAFULL")

/-- A database that lists this definition alone. -/
def silent : Client := { snapshot := { database := { tables := .ofList [unanswered] } } }

theorem tableEntries_silent : silent.tableEntries = [unanswered] := rfl

theorem skips_silent : silent.Skips unanswered := .inr ⟨_, _, rfl, rfl⟩

theorem not_definesTable_silent : ¬silent.DefinesTable "post" := by
  rintro ⟨e, he, hskips, -⟩
  rw [tableEntries_silent, List.mem_singleton] at he
  subst he
  exact hskips skips_silent

theorem introspection_failures_silent :
    (∃ w ∈ silent.reading.warnings, w.subject = "table post") ∧
      ∃ c ∈ plan silent.reading.schema (.ofList [("post.rs", "")]) none {},
        c.action = .delete ∧ c.file = "post.rs" := by
  obtain ⟨-, known⟩ := introspection_failures silent
  obtain ⟨-, skipped, -⟩ := known rfl
  obtain ⟨⟨w, hw, hsubject, -⟩, deleted, -⟩ := skipped _ List.mem_cons_self skips_silent
  refine ⟨⟨w, hw, hsubject⟩, (deleted _ none {}).mpr ⟨?_, ?_, ?_, not_definesTable_silent⟩⟩
  · decide
  · decide
  · decide

/-- The file of a table is deleted because the database failed to answer for the table. -/
theorem not_skipped_kept :
    ¬∀ (client : Client) (r : Reading), client.introspect = .ok r →
      ∀ e ∈ client.tableEntries, client.Skips e → ∀ existing code options,
        ¬∃ c ∈ plan r.schema existing code options,
          c.action = .delete ∧ c.file = Source.fileOf e.1 := by
  intro h
  have introspected : silent.introspect = .ok silent.reading := by
    rw [introspect_eq, if_neg (by decide)]
  have kept := h silent silent.reading introspected _ List.mem_cons_self skips_silent
    (.ofList [("post.rs", "")]) none {}
  rw [Plan.exists_delete_iff] at kept
  refine kept ⟨?_, "post", ?_, table?_reading_eq_none_iff.mpr not_definesTable_silent⟩
  · decide
  · decide

end Client

end SchemaDrift
