import Mathlib.Data.Option.Basic
import SchemaDrift.Proofs.Migration.Rendered

namespace SchemaDrift

/-!
# One migration is enough

What the instructions of a migration do can be told table by table, and in a table field by field
and index by index. So after the migration the comparison that asked for it has nothing left to ask
for.
-/

namespace Instruction

/-! ## Members of a table -/

/-- What a migration does to the fields of a table. -/
def fieldEdits (source target : Table) : List (Edit Text Field) :=
  Edit.sync Field.path (Change.ofSourceField source target) (Change.ofTargetField source target)
    source.fields target.fields

def indexEdits (source target : Table) : List (Edit Text Index) :=
  Edit.sync Index.name (Change.ofSourceIndex source target) (Change.ofTargetIndex source)
    source.indexes target.indexes

theorem map_edit_ofTables (s t : Table) : (ofTables s t).map edit =
    (Change.ofKind s t).map (fun _ => (defineTable s.header).edit) ++
      (fieldEdits s t).map (fun e => inTable s.name (·.editField? e)) ++
      (indexEdits s t).map (fun e => inTable s.name (·.editIndex? e)) := by
  simp only [ofTables, fieldEdits, indexEdits, Edit.sync, List.map_append, List.map_flatMap,
    List.map_map, List.append_assoc]
  rfl

theorem actAll?_inTable {α : Type} (name : Text) (change : α → Table → Option Table) (es : List α)
    (t : Table) : Edit.actAll? (es.map fun e => inTable name (change e)) (some t) =
      (es.foldlM (fun t e => change e t) t).map some := by
  induction es generalizing t with
  | nil => rfl
  | cons e es ih =>
    rw [List.map_cons, Edit.actAll?, List.foldlM_cons, List.foldlM_cons]
    change ((change e t).map some).bind _ = _
    cases change e t with
    | none => rfl
    | some t' => exact ih t'

theorem foldlM_editField? (es : List (Edit Text Field)) (t : Table) :
    es.foldlM (fun t e => t.editField? e) t =
      (Edit.run? Field.path es t.fields).map ({ t with fields := · }) := by
  induction es generalizing t with
  | nil => rfl
  | cons e es ih =>
    rw [Edit.run?, List.foldlM_cons, List.foldlM_cons, Table.editField?]
    cases e.step? Field.path t.fields with
    | none => rfl
    | some l => exact ih { t with fields := l }

theorem foldlM_editIndex? (es : List (Edit Text Index)) (t : Table) :
    es.foldlM (fun t e => t.editIndex? e) t =
      (Edit.run? Index.name es t.indexes).map ({ t with indexes := · }) := by
  induction es generalizing t with
  | nil => rfl
  | cons e es ih =>
    rw [Edit.run?, List.foldlM_cons, List.foldlM_cons, Table.editIndex?]
    cases e.step? Index.name t.indexes with
    | none => rfl
    | some l => exact ih { t with indexes := l }

/-- After its edits, a table has the fields that the source asks for. -/
theorem exists_run?_fieldEdits {s t : Table} (hs : s.Plain) (ht : t.Plain) :
    ∃ fs, Edit.run? Field.path (fieldEdits s t) t.fields = some fs ∧
      ∀ t' : Table, t'.fields = fs → (∀ f ∈ s.fields, Change.ofSourceField s t' f = []) ∧
        ∀ f ∈ t'.fields, Change.ofTargetField s t' f = [] := by
  have drops : ∀ f ∈ t.fields, (Change.ofTargetField s t f).length =
      if f.path ∈ s.fields.map Field.path then 0 else 1 := by
    intro f hf
    exact Change.length_ofTargetField f (ht.fields f hf) hs.paths
  obtain ⟨fs, hrun, hnodup, hfind⟩ := Edit.exists_run?_sync hs.paths ht.paths drops
  refine ⟨fs, hrun, ?_⟩
  rintro t' rfl
  have last (f : Field) : t'.lastFieldAt? f.path = t'.fields.find? (Field.path · == f.path) :=
    find?_reverse hnodup f.path
  constructor
  · intro f hf
    have found := (last f).trans (hfind f.path)
    rw [find?_key_of_mem hs.paths hf, Option.bind_some] at found
    by_cases hnone : Change.ofSourceField s t f = []
    · -- Nothing was asked for, so what was there is still there.
      have before : t.lastFieldAt? f.path = t.fields.find? (Field.path · == f.path) :=
        find?_reverse ht.paths f.path
      rw [if_pos hnone, ← before] at found
      rw [Change.ofSourceField] at hnone ⊢
      rw [found]
      exact hnone
    · rw [if_neg hnone] at found
      rw [Change.ofSourceField, found]
      exact Change.ofField_self s.name f
  · intro f hf
    have here := hfind f.path
    rw [find?_key_of_mem hnodup hf] at here
    obtain ⟨g, hg, -⟩ := Option.bind_eq_some_iff.mp here.symm
    have known : s.lastFieldAt? f.path = some g := (find?_reverse hs.paths f.path).trans hg
    rw [Change.ofTargetField, known]
    rfl

theorem exists_run?_indexEdits {s t : Table} (hs : s.Plain) (ht : t.Plain) :
    ∃ is, Edit.run? Index.name (indexEdits s t) t.indexes = some is ∧
      ∀ t' : Table, t'.indexes = is → (∀ i ∈ s.indexes, Change.ofSourceIndex s t' i = []) ∧
        ∀ i ∈ t'.indexes, Change.ofTargetIndex s i = [] := by
  have drops : ∀ i ∈ t.indexes, (Change.ofTargetIndex s i).length =
      if i.name ∈ s.indexes.map Index.name then 0 else 1 := by
    intro i _
    exact Change.length_ofTargetIndex i
  obtain ⟨is, hrun, hnodup, hfind⟩ := Edit.exists_run?_sync hs.indexNames ht.indexNames drops
  refine ⟨is, hrun, ?_⟩
  rintro t' rfl
  constructor
  · intro i hi
    have found : t'.index? i.name = _ := hfind i.name
    rw [find?_key_of_mem hs.indexNames hi, Option.bind_some] at found
    by_cases hnone : Change.ofSourceIndex s t i = []
    · rw [if_pos hnone] at found
      rw [Change.ofSourceIndex] at hnone ⊢
      rw [found]
      exact hnone
    · rw [if_neg hnone] at found
      exact Change.ofSourceIndex_eq_nil found
  · intro i hi
    have here := hfind i.name
    rw [find?_key_of_mem hnodup hi] at here
    obtain ⟨j, hj, -⟩ := Option.bind_eq_some_iff.mp here.symm
    have known : s.index? i.name = some j := hj
    rw [Change.ofTargetIndex, known]
    rfl

/-! ## A table -/

/-- After the instructions for it, a table has no changes. -/
theorem exists_actAll?_ofTables {s t : Table} (hs : s.Plain) (ht : t.Plain) :
    ∃ t', Edit.actAll? ((ofTables s t).map edit) (some t) = some (some t') ∧
      Change.ofTables s t' = [] := by
  obtain ⟨t₁, hkind, hfields, hindexes, hact⟩ : ∃ t₁ : Table, s.kind = t₁.kind ∧
      t₁.fields = t.fields ∧ t₁.indexes = t.indexes ∧
        Edit.actAll? ((Change.ofKind s t).map fun _ => (defineTable s.header).edit) (some t) =
          some (some t₁) := by
    -- If the kind differs, the whole header is replaced, but none of the members.
    by_cases h : s.kind = t.kind
    · refine ⟨t, h, rfl, rfl, ?_⟩
      rw [Change.ofKind, if_pos h]
      rfl
    · refine ⟨s.header.redefine (some t), rfl, rfl, rfl, ?_⟩
      rw [Change.ofKind, if_neg h]
      rfl
  obtain ⟨fs, hfs, fieldsDone⟩ := exists_run?_fieldEdits hs ht
  obtain ⟨is, his, indexesDone⟩ := exists_run?_indexEdits hs ht
  refine ⟨{ t₁ with fields := fs, indexes := is }, ?_, ?_⟩
  · rw [map_edit_ofTables, Edit.actAll?_append, Edit.actAll?_append, hact, Option.bind_some,
      actAll?_inTable, foldlM_editField?, hfields, hfs]
    change Edit.actAll? _ (some { t₁ with fields := fs }) = _
    rw [actAll?_inTable, foldlM_editIndex?]
    change ((Edit.run? Index.name (indexEdits s t) t₁.indexes).map _).map _ = _
    rw [hindexes, his]
    rfl
  · have kindDone : Change.ofKind s { t₁ with fields := fs, indexes := is } = [] := if_pos hkind
    obtain ⟨fieldsDone₁, fieldsDone₂⟩ := fieldsDone { t₁ with fields := fs, indexes := is } rfl
    obtain ⟨indexesDone₁, indexesDone₂⟩ := indexesDone { t₁ with fields := fs, indexes := is } rfl
    exact Change.ofTables_nil_iff.mpr
      ⟨kindDone, fieldsDone₁, fieldsDone₂, indexesDone₁, indexesDone₂⟩

/-- The script of a table says the same as the definition of the table and the changes of the
defined table. -/
theorem scriptOf_eq {s : Table} (hs : s.Plain) :
    scriptOf s = defineTable s.header :: ofTables s s.header := by
  have kind : Change.ofKind s s.header = [] := if_pos rfl
  have fields : ∀ f ∈ s.fields, ((Change.ofSourceField s s.header f).map fun _ =>
      defineField s.name f) = [defineField s.name f] := by
    intro f hf
    have nothing : s.header.lastFieldAt? f.path = none := rfl
    have implied : s.implies f = false := by simp [Table.implies, hs.fields f hf]
    rw [Change.ofSourceField, nothing, implied]
    rfl
  have indexes : ∀ i ∈ s.indexes, ((Change.ofSourceIndex s s.header i).map fun _ =>
      defineIndex s.name i) = [defineIndex s.name i] := fun i _ => rfl
  rw [ofTables, kind, List.flatMap_congr fields, List.flatMap_congr indexes, scriptOf,
    hs.properFields_eq, hs.properIndexes_eq, List.map_eq_flatMap, List.map_eq_flatMap]
  simp [Table.header]

theorem plain_header (s : Table) : s.header.Plain :=
  ⟨List.nodup_nil, List.nodup_nil, by simp [Table.header], by simp [Table.header]⟩

theorem exists_actAll?_scriptOf {s : Table} (hs : s.Plain) :
    ∃ t', Edit.actAll? ((scriptOf s).map edit) none = some (some t') ∧
      Change.ofTables s t' = [] := by
  obtain ⟨t', hact, hdone⟩ := exists_actAll?_ofTables hs (plain_header s)
  refine ⟨t', ?_, hdone⟩
  rw [scriptOf_eq hs, List.map_cons, Edit.actAll?, List.foldlM_cons]
  exact hact

/-! ## A schema -/

theorem keepsKey_inTable {name : Text} {change : Table → Option Table}
    (h : ∀ t t', change t = some t' → t'.name = t.name) :
    (inTable name change).KeepsKey Table.name := by
  intro old t hold hact
  obtain ⟨t', ht', he⟩ := Option.map_eq_some_iff.mp hact
  obtain ⟨b, hb, hchange⟩ := Option.bind_eq_some_iff.mp ht'
  cases he
  exact (h b t hchange).trans (hold b hb)

theorem name_of_editField? {t t' : Table} {e : Edit Text Field} (h : t.editField? e = some t') :
    t'.name = t.name := by
  obtain ⟨l, -, rfl⟩ := Option.map_eq_some_iff.mp h
  rfl

theorem name_of_editIndex? {t t' : Table} {e : Edit Text Index} (h : t.editIndex? e = some t') :
    t'.name = t.name := by
  obtain ⟨l, -, rfl⟩ := Option.map_eq_some_iff.mp h
  rfl

theorem keepsKey_edit (c : Instruction) : c.edit.KeepsKey Table.name := by
  cases c with
  | defineTable header =>
    rintro old t - hact
    cases hact
    cases old <;> rfl
  | defineField table f => exact keepsKey_inTable fun _ _ => name_of_editField?
  | defineIndex table i => exact keepsKey_inTable fun _ _ => name_of_editIndex?
  | removeTable table => exact Edit.keepsKey_remove Table.name table
  | removeField table path => exact keepsKey_inTable fun _ _ => name_of_editField?
  | removeIndex table name => exact keepsKey_inTable fun _ _ => name_of_editIndex?

theorem key_of_mem_ofTables {s t : Table} {e : Edit Text Table}
    (h : e ∈ (ofTables s t).map edit) : e.key = s.name := by
  rw [map_edit_ofTables] at h
  rcases List.mem_append.mp h with h | h
  · rcases List.mem_append.mp h with h | h
    · obtain ⟨-, -, rfl⟩ := List.mem_map.mp h
      rfl
    · obtain ⟨-, -, rfl⟩ := List.mem_map.mp h
      rfl
  · obtain ⟨-, -, rfl⟩ := List.mem_map.mp h
    rfl

theorem key_of_mem_scriptOf {s : Table} (hs : s.Plain) {e : Edit Text Table}
    (h : e ∈ (scriptOf s).map edit) : e.key = s.name := by
  rw [scriptOf_eq hs, List.map_cons] at h
  rcases List.mem_cons.mp h with rfl | h
  · rfl
  · exact key_of_mem_ofTables h

variable {source target : Schema}

-- New tables, dropped tables and common tables are three lists of groups, one for each name.

theorem nodup_names_filter {l : List Table} (hn : (l.map Table.name).Nodup) (p : Table → Bool) :
    ((l.filter p).map Table.name).Nodup := hn.sublist (List.filter_sublist.map _)

theorem under_added (hs : source.Plain) (k : Text) :
    Edit.under k (((source.tables.filter fun t =>
      (target.table? t.name).isNone).flatMap scriptOf).map edit) =
        if (target.table? k).isNone then
          ((source.table? k).map fun s => (scriptOf s).map edit).getD [] else [] := by
  rw [List.map_flatMap, Edit.under_flatMap (nodup_names_filter hs.names _),
    find?_filter_key source.tables (fun name => (target.table? name).isNone)]
  · split <;> rfl
  · intro s hsm e he
    exact key_of_mem_scriptOf (hs.tables s (List.mem_filter.mp hsm).1) he

theorem under_removed (ht : target.Plain) (k : Text) :
    Edit.under k (((target.tables.filter fun t =>
      (source.table? t.name).isNone).map (removeTable ·.name)).map edit) =
        if (source.table? k).isNone then
          ((target.table? k).map fun t => [Edit.remove t.name]).getD [] else [] := by
  rw [List.map_map, List.map_eq_flatMap, Edit.under_flatMap (nodup_names_filter ht.names _),
    find?_filter_key target.tables (fun name => (source.table? name).isNone)]
  · split <;> rfl
  · intro t _ e he
    rw [List.mem_singleton.mp he]
    rfl

theorem under_common (hs : source.Plain) (k : Text) :
    Edit.under k ((source.tables.flatMap fun s =>
      ((target.lastTable? s.name).map (ofTables s)).getD []).map edit) =
        ((source.table? k).map fun s =>
          (((target.lastTable? s.name).map (ofTables s)).getD []).map edit).getD [] := by
  rw [List.map_flatMap, Edit.under_flatMap hs.names]
  · rfl
  · intro s _ e he
    cases found : target.lastTable? s.name with
    | none =>
      rw [found] at he
      cases he
    | some t =>
      rw [found] at he
      exact key_of_mem_ofTables he

theorem under_ofSchemas (hs : source.Plain) (ht : target.Plain) (k : Text) :
    Edit.under k ((ofSchemas source target).map edit) =
      match source.table? k, target.table? k with
      | none, none => []
      | none, some _ => [.remove k]
      | some s, none => (scriptOf s).map edit
      | some s, some t => (ofTables s t).map edit := by
  rw [ofSchemas, List.map_append, List.map_append, Edit.under_append, Edit.under_append,
    under_added hs, under_removed ht, under_common hs]
  cases hsource : source.table? k with
  | none =>
    cases htarget : target.table? k with
    | none => rfl
    | some t =>
      obtain ⟨-, rfl⟩ := find?_key_eq_some htarget
      rfl
  | some s =>
    obtain ⟨-, rfl⟩ := find?_key_eq_some hsource
    simp only [Option.map_some, Option.getD_some, ht.lastTable?_eq]
    cases htarget : target.table? s.name with
    | none => simp
    | some t => simp

/-- Where each table of one schema has no changes to the table of its name in the other, and no
other tables are there, the schemas have no changes. -/
theorem compare_eq_nil {s t : Schema} (hs : (s.tables.map Table.name).Nodup)
    (ht : (t.tables.map Table.name).Nodup)
    (h : ∀ k, Option.Rel (fun a b => Change.ofTables a b = []) (s.table? k) (t.table? k)) :
    s.compare t .push = [] := by
  have found {a : Table} (ha : a ∈ s.tables) : s.table? a.name = some a := find?_key_of_mem hs ha
  apply List.eq_nil_iff_forall_not_mem.mpr
  intro c hc
  rcases Change.mem_compare.mp hc with
    ⟨a, ha, hnone, -⟩ | ⟨b, hb, hnone, -⟩ | ⟨a, ha, b, hlast, d, hd, -⟩
  · have rel := h a.name
    rw [found ha, hnone] at rel
    cases rel
  · have rel := h b.name
    have there : t.table? b.name = some b := find?_key_of_mem ht hb
    rw [there, hnone] at rel
    cases rel
  · have rel := h a.name
    have last : t.table? a.name = some b := (find?_reverse ht a.name).symm.trans hlast
    rw [found ha, last] at rel
    cases rel with
    | some settled =>
      rw [settled] at hd
      cases hd

/-- A database that executes the migration to a schema has no changes to this schema any more. -/
theorem exists_execute?_compare_eq_nil (hs : source.Plain) (hw : source.Writable)
    (ht : target.Plain) (hn : ∀ t ∈ target.tables, t.Named) :
    ∃ reached, execute? (Change.statements (source.compare target .push) source target) target =
      some reached ∧ source.compare reached .push = [] := by
  have each (k : Text) : ∃ new,
      Edit.actAll? (Edit.under k ((ofSchemas source target).map edit)) (target.table? k) =
        some new ∧ Option.Rel (fun a b => Change.ofTables a b = []) (source.table? k) new := by
    rw [under_ofSchemas hs ht]
    cases hsource : source.table? k with
    | none =>
      cases htarget : target.table? k with
      | none => exact ⟨none, rfl, .none⟩
      | some t => exact ⟨none, rfl, .none⟩
    | some s =>
      have plain := hs.tables s (find?_key_eq_some hsource).1
      cases htarget : target.table? k with
      | none =>
        obtain ⟨t', hact, hdone⟩ := exists_actAll?_scriptOf plain
        exact ⟨some t', hact, .some hdone⟩
      | some t =>
        obtain ⟨t', hact, hdone⟩ :=
          exists_actAll?_ofTables plain (ht.tables t (find?_key_eq_some htarget).1)
        exact ⟨some t', hact, .some hdone⟩
  -- Each table is settled on its own, and the edits of a table touch no other.
  choose new hact hdone using each
  have keeps : ∀ e ∈ (ofSchemas source target).map edit, e.KeepsKey Table.name := by
    intro e he
    obtain ⟨c, -, rfl⟩ := List.mem_map.mp he
    exact keepsKey_edit c
  obtain ⟨tables, hrun, hnodup, hfind⟩ := Edit.exists_run? keeps ht.names hact
  refine ⟨⟨tables⟩, ?_, ?_⟩
  · rw [execute?_eq_foldlM (renders_compare hs hw ht hn), foldlM_step?, hrun]
    rfl
  · apply compare_eq_nil hs.names hnodup
    intro k
    have found : (⟨tables⟩ : Schema).table? k = new k := hfind k
    rw [found]
    exact hdone k

/-- A schema with tables that are new, of another kind, and with other members. -/
def wanted : Schema := ⟨[
  { name := "person"
    fields := [
      { name := "email", type := "string", default := some "'none'"
        assertion := some "$value != NONE" },
      { name := "home.city", type := "string" }]
    indexes := [{ name := "by_email", columns := ["email"], unique := true }] },
  { name := "likes", kind := .relation
    fields := [{ name := "in", type := "record<person>" }] },
  { name := "note", fields := [{ name := "text", type := "string" }] }]⟩

/-- What a database has before its migration to the wanted schema. -/
def present : Schema := ⟨[
  { name := "person", drop := true
    fields := [
      { name := "age", type := "int" },
      { name := "email", type := "option<string>", readonly := true }]
    indexes := [
      { name := "by_age", columns := ["age"] },
      { name := "by_email", columns := ["age", "email"] }] },
  { name := "likes" },
  { name := "old" }]⟩

theorem plain_wanted : wanted.Plain := ⟨by decide, by decide⟩

theorem plain_present : present.Plain := ⟨by decide, by decide⟩

theorem writable_wanted : wanted.Writable := by
  have city : IsPath "home.city" :=
    ⟨"home", [".city"], by decide, by simpa using IsStep.name (n := "city") (by decide), rfl⟩
  have names : ∀ t ∈ wanted.tables, ∀ f ∈ t.properFields,
      IsName f.name ∨ f.name = "home.city" := by decide
  refine .of_paths (fun t ht f hf => ?_) (by decide) (by decide) (by decide)
  rcases names t ht f hf with hname | hname
  · exact hname.isPath
  · rw [hname]
    exact city

theorem named_present : ∀ t ∈ present.tables, t.Named := by
  have names : ∀ t ∈ present.tables, IsName t.name ∧ (∀ f ∈ t.fields, IsName f.name) ∧
      ∀ i ∈ t.indexes, IsName i.name := by decide
  intro t ht
  obtain ⟨name, fields, indexes⟩ := names t ht
  exact ⟨name, fun f hf => (fields f hf).isPath, indexes⟩

theorem exists_execute?_wanted : ∃ reached,
    execute? (Change.statements (wanted.compare present .push) wanted present) present =
      some reached ∧ wanted.compare reached .push = [] :=
  exists_execute?_compare_eq_nil plain_wanted writable_wanted plain_present named_present

end Instruction

end SchemaDrift
