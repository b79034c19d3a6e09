import Mathlib.Data.List.Forall2
import SchemaDrift.Proofs.Schema.Put
import SchemaDrift.Proofs.Statement.Tables

namespace SchemaDrift

/-!
# Schemas and their scripts

The script of a schema is read back as the schema, without what no script holds: the element
constraints, the indexes that the database manages on its own, and the events.
-/

namespace Table

/-- The indexes that the database does not manage on its own. -/
def properIndexes (t : Table) : List Index := t.indexes.filter (!·.isDetectionOnly)

/-- The table without its members. -/
def header (t : Table) : Table := { t with fields := [], indexes := [], events := [] }

/-- The part of the table that a script holds. -/
def scripted (t : Table) : Table :=
  { t with fields := t.properFields, indexes := t.properIndexes, events := [] }

/-- Whether the table can be written with everything that a script holds of it. -/
structure Writable (t : Table) : Prop where
  header : t.HeaderWritable
  fields : ∀ f ∈ t.properFields, f.Writable
  indexes : ∀ i ∈ t.properIndexes, i.Writable
  fieldNames : (t.properFields.map (·.name)).Nodup
  indexNames : (t.properIndexes.map (·.name)).Nodup

/-- The members of the table that a script holds. -/
def members (t : Table) : List Member :=
  t.properFields.map Member.field ++ t.properIndexes.map Member.index

theorem foldl_members {t : Table} (h : t.Writable) :
    t.members.foldl Member.addTo t.header = t.scripted := by
  have fields (t' : Table) : (t.properFields.map Member.field).foldl Member.addTo t' =
      t.properFields.foldl addField t' := List.foldl_map
  have indexes (t' : Table) : (t.properIndexes.map Member.index).foldl Member.addTo t' =
      t.properIndexes.foldl addIndex t' := List.foldl_map
  have hfields : ((t.header.fields ++ t.properFields).map (·.name)).Nodup := h.fieldNames
  rw [members, List.foldl_append, fields, foldl_addField hfields, indexes]
  exact foldl_addIndex h.indexNames

end Table

namespace Schema

/-- The part of the schema that a script holds. -/
def scripted (s : Schema) : Schema := ⟨s.tables.map Table.scripted⟩

/-- Whether the schema can be written. -/
structure Writable (s : Schema) : Prop where
  tables : ∀ t ∈ s.tables, t.Writable
  names : (s.tables.map (·.name)).Nodup

/-- All that is to be shown of the fields, besides that their names are paths, can be decided. -/
theorem Writable.of_paths {s : Schema}
    (paths : ∀ t ∈ s.tables, ∀ f ∈ t.properFields, IsPath f.name)
    (texts : ∀ t ∈ s.tables, ∀ f ∈ t.properFields, (∀ e ∈ f.texts, Script.Settled e) ∧
      (∀ e ∈ f.texts, ∀ k ∈ ("FLEXIBLE" : Text) :: Statement.fieldClauses, Keyword.Free k e) ∧
      f.permissions.Writable)
    (others : ∀ t ∈ s.tables, t.HeaderWritable ∧ (∀ i ∈ t.properIndexes, i.Writable) ∧
      (t.properFields.map (·.name)).Nodup ∧ (t.properIndexes.map (·.name)).Nodup)
    (names : (s.tables.map (·.name)).Nodup) : s.Writable := by
  refine ⟨fun t ht => ?_, names⟩
  obtain ⟨header, indexes, fieldNames, indexNames⟩ := others t ht
  refine ⟨header, fun f hf => ?_, indexes, fieldNames, indexNames⟩
  obtain ⟨settled, free, permissions⟩ := texts t ht f hf
  exact ⟨paths t ht f hf, settled, free, permissions⟩

/-- The definitions of the schema, one on a line. -/
def script (s : Schema) : Text := Text.join "\n" (s.tables.map Statement.script)

end Schema

namespace Statement

/-! ## Texts of definitions -/

/-- Whether the text is one statement with its semicolon and is read as `a`. -/
def ReadAs {m : Type → Type} [Monad m] {α : Type} (read : Text → m α) (text : Text) (a : α) :
    Prop :=
  ∃ s, text = s ++ [';'] ∧ Script.Settled s ∧ read s = pure a

/-- Whether the text is one statement that means this definition. -/
def Means (text : Text) (d : Definition) : Prop := ReadAs Definition.read text d

theorem means_writeTable {t : Table} (h : t.HeaderWritable) (mode : Mode) :
    Means (writeTable t mode) (.table t.header) :=
  ⟨_, writeTable_eq t mode, settled_table h.isName h.settled mode, read_table h mode⟩

theorem means_writeField {f : Field} (h : f.Writable) {table : Text} (ht : IsName table)
    (mode : Mode) : Means (writeField table f mode) (.member table (.field f)) :=
  ⟨_, writeField_eq table f mode, settled_field h.isPath h.settled ht mode, read_field h ht mode⟩

theorem means_writeIndex {i : Index} (h : i.Writable) (hown : i.isDetectionOnly = false)
    {table : Text} (ht : IsName table) (mode : Mode) :
    ∃ text, writeIndex? table i mode = some text ∧ Means text (.member table (.index i)) :=
  ⟨_, writeIndex_eq table hown mode, _, rfl, settled_index h.isName h.columns h.settled ht mode,
    read_index h hown ht mode⟩

/-- What the definitions of a table mean. -/
def meanings (t : Table) : List Definition :=
  .table t.header :: t.members.map (Definition.member t.name)

theorem forall₂_definitions {t : Table} (h : t.Writable) :
    List.Forall₂ Means (definitions t) (meanings t) := by
  have hname := h.header.isName
  have fields : List.Forall₂ Means
      (t.properFields.map fun f => writeField t.name f (fieldMode t f))
      (t.properFields.map fun f => .member t.name (.field f)) := by
    rw [List.forall₂_map_left_iff, List.forall₂_map_right_iff, List.forall₂_same]
    exact fun f hf => means_writeField (h.fields f hf) hname _
  have indexes (is : List Index) (his : ∀ i ∈ is.filter (!·.isDetectionOnly), i.Writable) :
      List.Forall₂ Means (is.filterMap fun i => writeIndex? t.name i .create)
        ((is.filter (!·.isDetectionOnly)).map fun i => .member t.name (.index i)) := by
    induction is with
    | nil => exact .nil
    | cons i is ih =>
      by_cases hown : i.isDetectionOnly
      · have unwritten : writeIndex? t.name i .create = none := if_pos hown
        simp only [List.filterMap_cons, unwritten]
        rw [List.filter_cons_of_neg (by simpa using hown)]
        exact ih fun j hj => his j (by rwa [List.filter_cons_of_neg (by simpa using hown)])
      · have hown : i.isDetectionOnly = false := by simpa using hown
        have keep : (i :: is).filter (!·.isDetectionOnly) =
            i :: is.filter (!·.isDetectionOnly) := List.filter_cons_of_pos (by simp [hown])
        rw [keep] at his ⊢
        obtain ⟨text, hwrite, hmeans⟩ :=
          means_writeIndex (his i List.mem_cons_self) hown hname .create
        simp only [List.filterMap_cons, hwrite, List.map_cons]
        exact .cons hmeans (ih fun j hj => his j (List.mem_cons_of_mem i hj))
  have members : t.members.map (Definition.member t.name) =
      (t.properFields.map fun f => .member t.name (.field f)) ++
        t.properIndexes.map fun i => .member t.name (.index i) := by
    rw [Table.members, List.map_append, List.map_map, List.map_map]
    rfl
  rw [meanings, members]
  exact .cons (means_writeTable h.header .create) (List.rel_append fields (indexes _ h.indexes))

theorem forall₂_flatMap_definitions {ts : List Table} (h : ∀ t ∈ ts, t.Writable) :
    List.Forall₂ Means (ts.flatMap definitions) (ts.flatMap meanings) := by
  induction ts with
  | nil => exact .nil
  | cons t ts ih =>
    rw [List.flatMap_cons, List.flatMap_cons]
    exact List.rel_append (forall₂_definitions (h t List.mem_cons_self))
      (ih fun t' ht' => h t' (List.mem_cons_of_mem t ht'))

/-- A script of texts that are read one by one is read as a whole. -/
theorem mapM_statements_join {m : Type → Type} [Monad m] [LawfulMonad m] {α : Type}
    {read : Text → m α} {texts : List Text} {as : List α}
    (h : List.Forall₂ (ReadAs read) texts as) :
    (Script.statements (Text.join "\n" texts)).mapM read = pure as := by
  obtain ⟨ss, rfl, hsettled, hread⟩ : ∃ ss : List Text, texts = ss.map (· ++ [';']) ∧
      (∀ s ∈ ss, Script.Settled s) ∧ ss.mapM read = pure as := by
    induction h with
    | nil => exact ⟨[], rfl, by simp, rfl⟩
    | cons head _ ih =>
      obtain ⟨s, rfl, hs, hd⟩ := head
      obtain ⟨ss, rfl, hss, hds⟩ := ih
      refine ⟨s :: ss, rfl, List.forall_mem_cons.mpr ⟨hs, hss⟩, ?_⟩
      rw [List.mapM_cons, hd, hds, pure_bind, pure_bind]
  rw [Script.statements_join hsettled, hread]

end Statement

namespace Script

/-! ## Reading a schema -/

theorem filterMap_table?_meanings (ts : List Table) :
    (ts.flatMap Statement.meanings).filterMap Definition.table? = ts.map Table.header := by
  induction ts with
  | nil => rfl
  | cons t ts ih =>
    have members : (t.members.map (Definition.member t.name)).filterMap Definition.table? = [] := by
      simp [List.filterMap_map, Function.comp_def, Definition.table?]
    rw [List.flatMap_cons, List.filterMap_append, ih, Statement.meanings, List.filterMap_cons,
      members]
    rfl

theorem filterMap_member?_meanings (ts : List Table) :
    (ts.flatMap Statement.meanings).filterMap Definition.member? =
      ts.flatMap fun t => t.members.map (t.name, ·) := by
  induction ts with
  | nil => rfl
  | cons t ts ih =>
    have members : (t.members.map (Definition.member t.name)).filterMap Definition.member? =
        t.members.map (t.name, ·) := by
      simp [List.filterMap_map, Function.comp_def, Definition.member?]
    rw [List.flatMap_cons, List.filterMap_append, ih, List.flatMap_cons, Statement.meanings,
      List.filterMap_cons, members]
    rfl

theorem foldlM_add?_members {pre post : List Table} {t : Table} {name : Text}
    (hpre : name ∉ pre.map (·.name)) (ht : t.name = name) (ms : List Member) :
    (ms.map (name, ·)).foldlM add? ⟨pre ++ t :: post⟩ =
      .ok ⟨pre ++ ms.foldl Member.addTo t :: post⟩ := by
  induction ms generalizing t with
  | nil => rfl
  | cons m ms ih =>
    have other : ∀ b ∈ pre, (b.name == name) = false := fun b hb => by
      have hne : b.name ≠ name := fun he => hpre (List.mem_map.mpr ⟨b, hb, he⟩)
      simpa using hne
    have found : ((⟨pre ++ t :: post⟩ : Schema).table? name).isSome := by
      simp [Schema.table?, ht]
    have added : add? ⟨pre ++ t :: post⟩ (name, m) = .ok ⟨pre ++ m.addTo t :: post⟩ := by
      rw [add?, if_pos found, Schema.modifyTable, modifyBy_append other (by simp [ht])]
    rw [List.map_cons, List.foldlM_cons, added]
    exact ih (by rw [Member.name_addTo, ht])

/-- The members of all tables are added to their tables, in the order of the tables. -/
theorem foldlM_add? {done ts : List Table} (h : ∀ t ∈ ts, t.Writable)
    (hnames : ((done ++ ts).map (·.name)).Nodup) :
    (ts.flatMap fun t => t.members.map (t.name, ·)).foldlM add? ⟨done ++ ts.map Table.header⟩ =
      .ok ⟨done ++ ts.map Table.scripted⟩ := by
  -- The tables that are done grow at the end, and those to come are headers until their turn.
  induction ts generalizing done with
  | nil => rfl
  | cons t ts ih =>
    have here := h t List.mem_cons_self
    have hpre : t.name ∉ done.map (·.name) := fun hm => by
      rw [List.map_append, List.map_cons] at hnames
      exact (List.nodup_append.mp hnames).2.2 _ hm _ List.mem_cons_self rfl
    have members : (t.members.map (t.name, ·)).foldlM add?
        ⟨done ++ t.header :: ts.map Table.header⟩ =
          .ok ⟨done ++ t.scripted :: ts.map Table.header⟩ := by
      have name : t.header.name = t.name := rfl
      rw [foldlM_add?_members hpre name, Table.foldl_members here]
    have moved : ((done ++ [t.scripted] ++ ts).map (·.name)).Nodup := by
      have name : t.scripted.name = t.name := rfl
      simpa [name] using hnames
    have rest := ih (fun t' ht' => h t' (List.mem_cons_of_mem t ht')) moved
    rw [List.append_assoc, List.append_assoc] at rest
    rw [List.flatMap_cons, List.foldlM_append, List.map_cons, members]
    exact rest

/-- The script of a schema is read as the part of the schema that it holds. -/
theorem readStrict_script {s : Schema} (h : s.Writable) :
    readStrict s.script = .ok s.scripted := by
  have together : s.script = Text.join "\n" (s.tables.flatMap Statement.definitions) := by
    have nonempty : ∀ g ∈ s.tables.map Statement.definitions, g ≠ [] := by
      simp [Statement.definitions]
    have joined := Text.join_map_join "\n" (s.tables.map Statement.definitions) nonempty
    rw [List.map_map] at joined
    rw [Schema.script, List.flatMap_def, ← joined]
    rfl
  have read : (Script.statements (Text.join "\n" (s.tables.flatMap Statement.definitions))).mapM
      Definition.read = .ok (s.tables.flatMap Statement.meanings) :=
    Statement.mapM_statements_join (Statement.forall₂_flatMap_definitions h.tables)
  have headers : ((s.tables.map Table.header).map (·.name)).Nodup := by
    rw [List.map_map]
    exact h.names
  have distinct : (([] ++ s.tables : List Table).map (·.name)).Nodup := h.names
  have add := foldlM_add? h.tables distinct
  rw [readStrict, together, read]
  change ((s.tables.flatMap Statement.meanings).filterMap Definition.member?).foldlM add?
    (Schema.ofTables ((s.tables.flatMap Statement.meanings).filterMap Definition.table?)) = _
  rw [filterMap_table?_meanings, filterMap_member?_meanings, Schema.ofTables_of_nodup headers]
  exact add

/-- A schema with a table of each kind and with members that no script holds. -/
def shop : Schema := ⟨[
  { name := "person"
    permissions := { select := some "WHERE note != '; -- nothing'", create := some "NONE" }
    fields := [
      { name := "email", type := "string", readonly := true
        assertion := some "$value = /[a-z;]+@x/ OR $value = \"a;b\"" },
      { name := "tags", type := "array<string>", default := some "[]"
        permissions := .all "FULL" },
      { name := "tags.*", type := "string" }]
    indexes := [
      { name := "by_email", columns := ["email", "tags"], unique := true },
      { name := "by_text", columns := ["email"], search := true }]
    events := [{ name := "log", condition := "true", action := "(CREATE entry)" }] },
  { name := "likes", kind := .relation, schemafull := false
    fields := [{ name := "in", type := "record<person>", value := some "$before" }] },
  { name := "adult", kind := .view, drop := true
    viewQuery := some "SELECT * FROM person WHERE age > 17" }]⟩

theorem writable_shop : shop.Writable := by
  have names : ∀ t ∈ shop.tables, ∀ f ∈ t.properFields, IsName f.name := by decide
  exact .of_paths (fun t ht f hf => (names t ht f hf).isPath) (by decide) (by decide) (by decide)

theorem readStrict_shop : shop.Writable ∧ readStrict shop.script = .ok shop.scripted :=
  ⟨writable_shop, readStrict_script writable_shop⟩

end Script

end SchemaDrift
