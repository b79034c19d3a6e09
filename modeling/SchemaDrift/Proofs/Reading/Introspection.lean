import SchemaDrift.Migration.Basic
import SchemaDrift.Proofs.Schema.Put

namespace SchemaDrift

/-!
# What introspection reads and what it skips

The schema of a database consists of the tables that can be read, each with the members that can be
read, and there is a warning for everything else.
-/

namespace Reading

/-! ## Members -/

/-- The members that statements define. What is not read defines nothing. -/
def members (read : Text → Except Fault Member) (statements : Dict Text) : List Member :=
  statements.entries.filterMap fun e => (read e.2).toOption

/-- What has to be said about the members of one kind. -/
def memberWarnings (noun : Noun) (read : Text → Except Fault Member) (key table : Text)
    (statements : Dict Text) : List Warning :=
  statements.entries.flatMap fun e =>
    match read e.2 with
    | .ok m => m.warnings table
    | .error fault => [.parseFailure (noun.label ++ " " ++ key ++ "." ++ e.1) fault]

theorem addMembers_eq (noun : Noun) (read : Text → Except Fault Member) (key : Text)
    (statements : Dict Text) (t : Partial) : addMembers noun read key statements t =
      ((members read statements).foldl Member.addTo t.1,
        t.2 ++ memberWarnings noun read key t.1.name statements) := by
  unfold addMembers members memberWarnings
  induction statements.entries generalizing t with
  | nil => simp
  | cons e es ih =>
    rw [List.foldl_cons, ih]
    cases h : read e.2 with
    | error fault =>
      simp only [addMember, List.filterMap_cons, List.flatMap_cons, h, Except.toOption,
        List.append_assoc]
    | ok m =>
      simp only [addMember, List.filterMap_cons, List.flatMap_cons, h, Except.toOption,
        List.foldl_cons, Member.name_addTo, List.append_assoc]

theorem name_foldl_addTo (ms : List Member) (t : Table) :
    (ms.foldl Member.addTo t).name = t.name := by
  induction ms generalizing t with
  | nil => rfl
  | cons m ms ih => rw [List.foldl_cons, ih, Member.name_addTo]

end Reading

namespace TableInfo

/-- The members of a table that are read. -/
def members (info : TableInfo) : List Member :=
  Reading.members Member.readField info.fields ++ Reading.members Member.readIndex info.indexes ++
    Reading.members Member.readEvent info.events

/-- What has to be said about the members of a table that is listed under `key`. -/
def warnings (key table : Text) (info : TableInfo) : List Warning :=
  Reading.memberWarnings .field Member.readField key table info.fields ++
    Reading.memberWarnings .index Member.readIndex key table info.indexes ++
    Reading.memberWarnings .event Member.readEvent key table info.events

theorem addInfo_eq (key : Text) (info : TableInfo) (t : Reading.Partial) :
    Reading.addInfo key info t =
      (info.members.foldl Member.addTo t.1, t.2 ++ info.warnings key t.1.name) := by
  rw [Reading.addInfo, Reading.addMembers_eq, Reading.addMembers_eq, Reading.addMembers_eq]
  simp only [members, warnings, Reading.name_foldl_addTo, List.foldl_append, List.append_assoc]

/-- Whether a field with this path is read from the definitions of a table. -/
def DefinesField (info : TableInfo) (path : Text) : Prop :=
  ∃ e ∈ info.fields.entries, ∃ f, Statement.readField e.2 = .ok f ∧ f.path = path

/-- Whether an index with this name is read from the definitions of a table. -/
def DefinesIndex (info : TableInfo) (name : Text) : Prop :=
  ∃ e ∈ info.indexes.entries, ∃ i, Statement.readIndex e.2 = .ok i ∧ i.name = name

/-! ## The members of a table that was read -/

theorem mem_names_addTo {m : Member} {t : Table} {n : Text} :
    (n ∈ (m.addTo t).fields.map Field.name ↔
      n ∈ t.fields.map Field.name ∨ ∃ f, .field f = m ∧ f.name = n) ∧
    (n ∈ (m.addTo t).indexes.map Index.name ↔
      n ∈ t.indexes.map Index.name ∨ ∃ i, .index i = m ∧ i.name = n) := by
  have put {α : Type} (key : α → Text) (a : α) (l : List α) :
      n ∈ (putBy (key · == key a) a l).map key ↔ n ∈ l.map key ∨ key a = n := by
    rw [map_key_putBy l rfl]
    split
    · rename_i hmem
      constructor
      · exact .inl
      · rintro (h | rfl)
        · exact h
        · exact hmem
    · rw [List.mem_append, List.mem_singleton, eq_comm]
  cases m with
  | field f =>
    constructor
    · rw [Member.addTo, Table.addField, put Field.name f t.fields]
      simp
    · simp [Member.addTo, Table.addField]
  | index i =>
    constructor
    · simp [Member.addTo, Table.addIndex]
    · rw [Member.addTo, Table.addIndex, put Index.name i t.indexes]
      simp
  | event e => simp [Member.addTo, Table.addEvent]

theorem mem_names_foldl_addTo {ms : List Member} {t : Table} {n : Text} :
    (n ∈ (ms.foldl Member.addTo t).fields.map Field.name ↔
      n ∈ t.fields.map Field.name ∨ ∃ f, .field f ∈ ms ∧ f.name = n) ∧
    (n ∈ (ms.foldl Member.addTo t).indexes.map Index.name ↔
      n ∈ t.indexes.map Index.name ∨ ∃ i, .index i ∈ ms ∧ i.name = n) := by
  induction ms generalizing t with
  | nil => simp
  | cons m ms ih =>
    obtain ⟨fields, indexes⟩ := mem_names_addTo (m := m) (t := t) (n := n)
    rw [List.foldl_cons, ih.1, ih.2, fields, indexes, or_assoc, or_assoc]
    simp only [List.mem_cons, or_and_right, exists_or, and_self]

theorem mem_members {read : Text → Except Fault Member} {statements : Dict Text} {m : Member} :
    m ∈ Reading.members read statements ↔ ∃ e ∈ statements.entries, read e.2 = .ok m := by
  rw [Reading.members, List.mem_filterMap]
  apply exists_congr
  intro e
  apply and_congr_right
  intro _
  cases read e.2 with
  | error fault => simp [Except.toOption]
  | ok m' => simp [Except.toOption]

theorem map_eq_ok_iff {ε α β : Type} {f : α → β} {x : Except ε α} {b : β} :
    x.map f = .ok b ↔ ∃ a, x = .ok a ∧ f a = b := by
  cases x with
  | error e => simp [Except.map]
  | ok a => simp [Except.map]

theorem field_mem_members {info : TableInfo} {f : Field} : .field f ∈ info.members ↔
    ∃ e ∈ info.fields.entries, Statement.readField e.2 = .ok f := by
  simp [members, mem_members, Member.readField, Member.readIndex, Member.readEvent, map_eq_ok_iff]

theorem index_mem_members {info : TableInfo} {i : Index} : .index i ∈ info.members ↔
    ∃ e ∈ info.indexes.entries, Statement.readIndex e.2 = .ok i := by
  simp [members, mem_members, Member.readField, Member.readIndex, Member.readEvent, map_eq_ok_iff]

theorem empty_of_readTable {statement : Text} {t : Table}
    (h : Statement.readTable statement = .ok t) : t.fields = [] ∧ t.indexes = [] := by
  unfold Statement.readTable at h
  split at h
  · cases h
  · cases h
    exact ⟨rfl, rfl⟩

/-- A table that was read has the fields whose definitions were read. -/
theorem lastFieldAt?_isSome_iff {info : TableInfo} {statement : Text} {t : Table}
    (h : Statement.readTable statement = .ok t) (path : Text) :
    ((info.members.foldl Member.addTo t).lastFieldAt? path).isSome = true ↔
      info.DefinesField path := by
  have names (n : Text) : n ∈ (info.members.foldl Member.addTo t).fields.map Field.name ↔
      ∃ f, .field f ∈ info.members ∧ f.name = n := by
    rw [mem_names_foldl_addTo.1, (empty_of_readTable h).1]
    simp
  rw [Table.lastFieldAt?, List.find?_isSome]
  constructor
  · rintro ⟨f, hf, hpath⟩
    obtain ⟨g, hg, hname⟩ := (names f.name).mp (List.mem_map_of_mem (List.mem_reverse.mp hf))
    obtain ⟨e, he, hread⟩ := field_mem_members.mp hg
    refine ⟨e, he, g, hread, ?_⟩
    rw [Field.path, hname]
    exact eq_of_beq hpath
  · rintro ⟨e, he, f, hread, rfl⟩
    obtain ⟨g, hg, hname⟩ :=
      List.mem_map.mp ((names f.name).mpr ⟨f, field_mem_members.mpr ⟨e, he, hread⟩, rfl⟩)
    refine ⟨g, List.mem_reverse.mpr hg, ?_⟩
    rw [Field.path, hname]
    exact beq_self_eq_true _

theorem index?_isSome_iff {info : TableInfo} {statement : Text} {t : Table}
    (h : Statement.readTable statement = .ok t) (name : Text) :
    ((info.members.foldl Member.addTo t).index? name).isSome = true ↔ info.DefinesIndex name := by
  have found : ((info.members.foldl Member.addTo t).index? name).isSome = true ↔
      name ∈ (info.members.foldl Member.addTo t).indexes.map Index.name := find?_key_isSome_iff
  rw [found, mem_names_foldl_addTo.2, (empty_of_readTable h).2]
  constructor
  · rintro (h | ⟨i, hi, rfl⟩)
    · cases h
    · obtain ⟨e, he, hread⟩ := index_mem_members.mp hi
      exact ⟨e, he, i, hread, rfl⟩
  · rintro ⟨e, he, i, hread, rfl⟩
    exact .inr ⟨i, index_mem_members.mpr ⟨e, he, hread⟩, rfl⟩

end TableInfo

namespace Client

/-! ## Tables -/

/-- The table that an entry of the database contributes, if the entry is read and the database
answers for the table. -/
def tableFor? (client : Client) (e : Text × Text) : Option Table :=
  (Statement.readTable e.2).toOption.bind fun t =>
    (client.table t.name).toOption.map fun info => info.members.foldl Member.addTo t

/-- What has to be said about an entry of the database. -/
def entryWarnings (client : Client) (e : Text × Text) : List Warning :=
  match Statement.readTable e.2 with
  | .error fault => [.parseFailure ("table " ++ e.1) fault]
  | .ok t =>
    match client.table t.name with
    | .error cause => [.unansweredTable e.1 cause]
    | .ok info => info.warnings e.1 t.name

theorem addTable_eq (client : Client) (r : Reading) (e : Text × Text) :
    Reading.addTable client r e =
      { schema := ((client.tableFor? e).map r.schema.addTable).getD r.schema
        warnings := r.warnings ++ client.entryWarnings e } := by
  unfold Reading.addTable tableFor? entryWarnings
  cases Statement.readTable e.2 with
  | error fault => rfl
  | ok t =>
    simp only [Except.toOption, Option.bind_some]
    cases client.table t.name with
    | error cause => rfl
    | ok info =>
      simp only [TableInfo.addInfo_eq]
      rfl

theorem foldl_addTable (client : Client) (es : List (Text × Text)) (r : Reading) :
    es.foldl (Reading.addTable client) r =
      { schema := (es.filterMap client.tableFor?).foldl Schema.addTable r.schema
        warnings := r.warnings ++ es.flatMap client.entryWarnings } := by
  induction es generalizing r with
  | nil => simp
  | cons e es ih =>
    rw [List.foldl_cons, ih, addTable_eq, List.flatMap_cons, List.append_assoc,
      List.filterMap_cons]
    cases client.tableFor? e with
    | none => rfl
    | some t => rfl

/-- The entries of the database that are about its tables. -/
def tableEntries (client : Client) : List (Text × Text) := client.snapshot.database.tables.entries

/-- What is read from a database that lists its definitions. -/
def reading (client : Client) : Reading where
  schema := Schema.ofTables (client.tableEntries.filterMap client.tableFor?)
  warnings := client.snapshot.database.warnings ++ client.tableEntries.flatMap client.entryWarnings

theorem introspect_eq (client : Client) : client.introspect =
    if client.fails .database then .error (.database "INFO FOR DB" connectionLost)
    else .ok client.reading := by
  unfold introspect database answer
  split
  · rfl
  · exact congrArg Except.ok (foldl_addTable client _ _)

theorem plan_eq_error {client : Client} (h : client.fails .database = true) (code : Schema) :
    Migration.plan client code = .error (.database "INFO FOR DB" connectionLost) := by
  rw [Migration.plan, introspect_eq, if_pos h]
  rfl

theorem plan_eq_ok {client : Client} {reading : Reading} (h : client.introspect = .ok reading)
    (code : Schema) : Migration.plan client code = .ok {
      changes := code.compare reading.schema .push
      statements := Change.statements (code.compare reading.schema .push) code reading.schema
      warnings := reading.warnings } := by
  rw [Migration.plan, h]
  rfl

theorem exists_plan_eq_ok {client : Client} (h : client.fails .database = false) (code : Schema) :
    ∃ m, Migration.plan client code = .ok m ∧
      m.changes = code.compare client.reading.schema .push := by
  have read : client.introspect = .ok client.reading := by
    rw [introspect_eq, if_neg (by simp [h])]
  exact ⟨_, plan_eq_ok read code, rfl⟩

/-! ## Skipped tables -/

/-- Whether an entry of the database is skipped: it is not read, or the database does not answer for
its table. -/
def Skips (client : Client) (e : Text × Text) : Prop :=
  (∃ fault, Statement.readTable e.2 = .error fault) ∨
    ∃ t cause, Statement.readTable e.2 = .ok t ∧ client.table t.name = .error cause

/-- Whether a table of this name is read from the database. -/
def DefinesTable (client : Client) (name : Text) : Prop :=
  ∃ e ∈ client.tableEntries, ¬client.Skips e ∧
    ∃ t, Statement.readTable e.2 = .ok t ∧ t.name = name

theorem tableFor?_of_skips {client : Client} {e : Text × Text} (h : client.Skips e) :
    client.tableFor? e = none := by
  rcases h with ⟨fault, hfault⟩ | ⟨t, cause, ht, hcause⟩
  · rw [tableFor?, hfault]
    rfl
  · rw [tableFor?, ht, Except.toOption, Option.bind_some, hcause]
    rfl

/-- An entry that is not skipped is read with the members that the database answers. -/
theorem exists_of_not_skips {client : Client} {e : Text × Text} (h : ¬client.Skips e) :
    ∃ t info, Statement.readTable e.2 = .ok t ∧ client.table t.name = .ok info ∧
      client.tableFor? e = some (info.members.foldl Member.addTo t) := by
  cases ht : Statement.readTable e.2 with
  | error fault => exact absurd (.inl ⟨fault, ht⟩) h
  | ok t =>
    cases hinfo : client.table t.name with
    | error cause => exact absurd (.inr ⟨t, cause, ht, hinfo⟩) h
    | ok info =>
      refine ⟨t, info, rfl, hinfo, ?_⟩
      rw [tableFor?, ht, Except.toOption, Option.bind_some, hinfo]
      rfl

/-- What an entry contributes is its table with the members that the database answers. -/
theorem exists_of_tableFor? {client : Client} {e : Text × Text} {t : Table}
    (h : client.tableFor? e = some t) : ¬client.Skips e ∧
      ∃ header info, Statement.readTable e.2 = .ok header ∧ client.table header.name = .ok info ∧
        t = info.members.foldl Member.addTo header := by
  have kept : ¬client.Skips e := by
    intro hskips
    rw [tableFor?_of_skips hskips] at h
    cases h
  obtain ⟨header, info, hheader, hinfo, hread⟩ := exists_of_not_skips kept
  rw [h] at hread
  exact ⟨kept, header, info, hheader, hinfo, Option.some.inj hread⟩

theorem definesTable_iff {client : Client} {name : Text} : client.DefinesTable name ↔
    ∃ t ∈ client.tableEntries.filterMap client.tableFor?, t.name = name := by
  constructor
  · rintro ⟨e, he, hskips, t, ht, rfl⟩
    obtain ⟨t', info, ht', -, hread⟩ := exists_of_not_skips hskips
    rw [ht] at ht'
    cases ht'
    exact ⟨_, List.mem_filterMap.mpr ⟨e, he, hread⟩, Reading.name_foldl_addTo _ t⟩
  · rintro ⟨t, hmem, rfl⟩
    obtain ⟨e, he, hread⟩ := List.mem_filterMap.mp hmem
    obtain ⟨hskips, t', info, ht', -, rfl⟩ := exists_of_tableFor? hread
    exact ⟨e, he, hskips, t', ht', (Reading.name_foldl_addTo _ t').symm⟩

end Client

namespace Schema

theorem table?_foldl_addTable (ts : List Table) (s : Schema) (name : Text) :
    (ts.foldl addTable s).table? name = (ts.reverse.find? (·.name == name)).or (s.table? name) := by
  induction ts generalizing s with
  | nil => rfl
  | cons t ts ih =>
    rw [List.foldl_cons, ih, List.reverse_cons, List.find?_append, Option.or_assoc]
    congr 1
    by_cases h : t.name = name
    · subst h
      rw [table?_addTable, List.find?_cons_of_pos (by simp)]
      rfl
    · rw [List.find?_cons_of_neg (by simpa using h)]
      exact find?_putBy_of_ne s.tables rfl (Ne.symm h)

theorem mem_of_mem_foldl_addTable {ts : List Table} {s : Schema} {t : Table}
    (h : t ∈ (ts.foldl addTable s).tables) : t ∈ ts ∨ t ∈ s.tables := by
  induction ts generalizing s with
  | nil => exact .inr h
  | cons u ts ih =>
    rcases ih h with h | h
    · exact .inl (List.mem_cons_of_mem u h)
    · rcases mem_of_mem_putBy h with rfl | h
      · exact .inl List.mem_cons_self
      · exact .inr h

theorem table?_ofTables (ts : List Table) (name : Text) :
    (ofTables ts).table? name = ts.reverse.find? (·.name == name) := by
  rw [ofTables, table?_foldl_addTable]
  exact Option.or_none

end Schema

namespace Client

theorem table?_reading_isSome_iff {client : Client} {name : Text} :
    (client.reading.schema.table? name).isSome = true ↔ client.DefinesTable name := by
  rw [definesTable_iff, reading, Schema.table?_ofTables, List.find?_isSome]
  simp

theorem exists_of_mem_reading {client : Client} {t : Table} (h : t ∈ client.reading.schema.tables) :
    ∃ e ∈ client.tableEntries, ∃ header info, Statement.readTable e.2 = .ok header ∧
      client.table header.name = .ok info ∧ t = info.members.foldl Member.addTo header := by
  rcases Schema.mem_of_mem_foldl_addTable h with h | h
  · obtain ⟨e, he, hread⟩ := List.mem_filterMap.mp h
    have hskips : ¬client.Skips e := by
      intro hskips
      rw [tableFor?_of_skips hskips] at hread
      cases hread
    obtain ⟨header, info, hheader, hinfo, hread'⟩ := exists_of_not_skips hskips
    rw [hread] at hread'
    exact ⟨e, he, header, info, hheader, hinfo, Option.some.inj hread'⟩
  · cases h

theorem table?_reading_eq_none_iff {client : Client} {name : Text} :
    client.reading.schema.table? name = none ↔ ¬client.DefinesTable name := by
  rw [← table?_reading_isSome_iff, Option.not_isSome_iff_eq_none]

/-! ## Warnings -/

theorem mem_warnings_reading {client : Client} {e : Text × Text} (he : e ∈ client.tableEntries)
    {w : Warning} (hw : w ∈ client.entryWarnings e) : w ∈ client.reading.warnings :=
  List.mem_append_right _ (List.mem_flatMap.mpr ⟨e, he, hw⟩)

/-- There is a warning about each skipped table. -/
theorem exists_warning_of_skips {client : Client} {e : Text × Text} (he : e ∈ client.tableEntries)
    (h : client.Skips e) : ∃ w ∈ client.reading.warnings, w.subject = "table " ++ e.1 ∧
      (w.kind = .parseFailure ∨ w.kind = .introspectionFailure) := by
  rcases h with ⟨fault, hfault⟩ | ⟨t, cause, ht, hcause⟩
  · refine ⟨.parseFailure ("table " ++ e.1) fault, mem_warnings_reading he ?_, rfl, .inl rfl⟩
    rw [entryWarnings, hfault]
    exact List.mem_singleton_self _
  · refine ⟨.unansweredTable e.1 cause, mem_warnings_reading he ?_, rfl, .inr rfl⟩
    rw [entryWarnings, ht]
    dsimp only
    rw [hcause]
    exact List.mem_singleton_self _

theorem warnings_of_read {client : Client} {e : Text × Text} (he : e ∈ client.tableEntries)
    {t : Table} {info : TableInfo} (ht : Statement.readTable e.2 = .ok t)
    (hinfo : client.table t.name = .ok info) {w : Warning} (hw : w ∈ info.warnings e.1 t.name) :
    w ∈ client.reading.warnings := by
  apply mem_warnings_reading he
  rw [entryWarnings, ht]
  dsimp only
  rwa [hinfo]

end Client

namespace TableInfo

theorem mem_memberWarnings {noun : Noun} {read : Text → Except Fault Member} {key table : Text}
    {statements : Dict Text} {d : Text × Text} {fault : Fault} (hd : d ∈ statements.entries)
    (h : read d.2 = .error fault) :
    .parseFailure (noun.label ++ " " ++ key ++ "." ++ d.1) fault ∈
      Reading.memberWarnings noun read key table statements := by
  refine List.mem_flatMap.mpr ⟨d, hd, ?_⟩
  rw [h]
  exact List.mem_singleton_self _

theorem mem_warnings_of_field {info : TableInfo} {key table : Text} {d : Text × Text}
    {fault : Fault} (hd : d ∈ info.fields.entries) (h : Statement.readField d.2 = .error fault) :
    .parseFailure ("field " ++ key ++ "." ++ d.1) fault ∈ info.warnings key table := by
  have read : Member.readField d.2 = .error fault := by
    rw [Member.readField, h]
    rfl
  exact List.mem_append_left _ (List.mem_append_left _ (mem_memberWarnings hd read))

theorem mem_warnings_of_index {info : TableInfo} {key table : Text} {d : Text × Text}
    {fault : Fault} (hd : d ∈ info.indexes.entries) (h : Statement.readIndex d.2 = .error fault) :
    .parseFailure ("index " ++ key ++ "." ++ d.1) fault ∈ info.warnings key table := by
  have read : Member.readIndex d.2 = .error fault := by
    rw [Member.readIndex, h]
    rfl
  exact List.mem_append_left _ (List.mem_append_right _ (mem_memberWarnings hd read))

end TableInfo

end SchemaDrift
