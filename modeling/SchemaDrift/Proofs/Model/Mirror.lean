import SchemaDrift.Merge.Difference
import SchemaDrift.Proofs.Change.About
import SchemaDrift.Proofs.Model.Flat

namespace SchemaDrift

/-!
# Tables without a difference

The table of a model that was made from a table has no changes and no differences to it. It may have
fields in addition, but only such as the types of the containers imply.
-/

open TypeExpr Declaration

/-- Whether a table is the same as another one, but for element constraints that are implied. -/
structure Table.Mirrors (t other : Table) : Prop where
  kind : t.kind = other.kind
  drop : t.drop = other.drop
  schemafull : t.schemafull = other.schemafull
  viewQuery : t.viewQuery = other.viewQuery
  permissions : t.permissions = other.permissions
  indexes : t.indexes = other.indexes
  accounts : ∀ g ∈ other.fields, t.Accounts other.fields g
  covers : ∀ f ∈ t.fields, ∃ g ∈ other.fields, g.path = f.path

theorem Path.normal_normal (path : Text) : normal (normal path) = normal path :=
  normal_eq_self_of_ne (normal_ne_append_star path)

namespace Table.Mirrors

variable {t other : Table} {f g : Field}

/-- The fields of both tables at one path agree. -/
theorem agrees (h : t.Mirrors other) (ht : t.Foldable) (hf : f ∈ t.fields) (hg : g ∈ other.fields)
    (hpath : f.path = g.path) : f.Agrees g := by
  rcases h.accounts g hg with ⟨f', hf', hpath', hagrees⟩ | ⟨-, -, -, himp, -⟩
  · have same : f' = f := List.inj_on_of_nodup_map ht.distinct hf' hf (hpath'.trans hpath.symm)
    exact same ▸ hagrees
  · exact absurd hpath (himp.path_ne ht f hf)

/-- The type of a field at an implied path is the implied one, and the container around it names it
in the other table as well. -/
theorem elementOf?_of_implied (h : t.Mirrors other) (ht : t.Foldable) {path type : Text}
    (himp : t.Implied (path ++ ".*") type) (hg : g ∈ other.fields) (hpath : g.path = path) :
    elementOf? (normal g.type) = some type := by
  generalize hp : path ++ ".*" = path' at himp
  cases himp with
  | @element f e hf he _ =>
    have same := h.agrees ht hf hg (by rw [hpath, List.append_cancel_right hp])
    rw [← same.type, he]
  | inner himp he =>
    rw [← List.append_cancel_right hp, ← hpath] at himp
    rcases h.accounts g hg with ⟨f, hf, hpath', -⟩ | ⟨-, -, -, himp', -⟩
    · exact absurd hpath' (himp.path_ne ht f hf)
    · rw [himp'.unique ht himp, he]

/-- An element constraint that only the other table has is implied there. -/
theorem implies_of_accounts (h : t.Mirrors other) (ht : t.Foldable) (hg : g ∈ other.fields)
    (hnone : ∀ f ∈ t.fields, f.path ≠ g.path) : other.implies g = true := by
  rcases h.accounts g hg with ⟨f, hf, hpath, -⟩ | ⟨hd, hv, ha, himp, name, hname, p, hp, hpath⟩
  · exact absurd hpath (hnone f hf)
  · have hw : g.isWildcard = true := by
      rw [Field.isWildcard, hname]
      exact Path.isWildcard_iff.mpr (.inl ⟨name, rfl⟩)
    have parent : Path.parent? g.name = some (Path.normal name) := by
      rw [hname, Path.parent?, normal_elements]
      exact Path.beforeLastDot_dot _ (by decide)
    obtain ⟨q, hq⟩ : ∃ q, other.fieldAt? (Path.normal name) = some q := by
      rw [Table.fieldAt?, Path.normal_normal, ← Option.isSome_iff_exists, List.find?_isSome]
      exact ⟨p, hp, by simp [hpath]⟩
    have hqmem : q ∈ other.fields := List.mem_of_find?_eq_some hq
    have hqpath : q.path = Path.normal name := by
      simpa [Path.normal_normal] using List.find?_some hq
    have around : g.path = Path.normal name ++ ".*" := by
      rw [Field.path, hname, normal_elements]
    rw [around] at himp
    have named := h.elementOf?_of_implied ht himp hqmem hqpath
    simp [Table.implies, hw, hd, hv, ha, parent, hq, element?_eq, named]

theorem ofSourceField_eq_nil (h : t.Mirrors other) (ht : t.Foldable) (hf : f ∈ t.fields) :
    Change.ofSourceField t other f = [] := by
  obtain ⟨g, hg, hpath⟩ := h.covers f hf
  obtain ⟨g', hg'⟩ : ∃ g', other.lastFieldAt? f.path = some g' := by
    rw [Table.lastFieldAt?, ← Option.isSome_iff_exists, List.find?_isSome]
    exact ⟨g, List.mem_reverse.mpr hg, by simp [hpath]⟩
  have hmem : g' ∈ other.fields := List.mem_reverse.mp (List.mem_of_find?_eq_some hg')
  have hpath' : g'.path = f.path := by simpa using List.find?_some hg'
  have same := h.agrees ht hf hmem hpath'.symm
  rw [Change.ofSourceField, hg']
  simp [Change.ofField, same.type, same.default, same.assertion]

theorem ofTargetField_eq_nil (h : t.Mirrors other) (ht : t.Foldable) (hg : g ∈ other.fields) :
    Change.ofTargetField t other g = [] := by
  rw [Change.ofTargetField, if_pos]
  rw [Bool.or_eq_true]
  by_cases hf : ∃ f ∈ t.fields, f.path = g.path
  · obtain ⟨f, hf, hpath⟩ := hf
    left
    rw [Table.lastFieldAt?, List.find?_isSome]
    exact ⟨f, List.mem_reverse.mpr hf, by simp [hpath]⟩
  · exact .inr (h.implies_of_accounts ht hg fun f hf' hpath => hf ⟨f, hf', hpath⟩)

theorem compare_eq_nil (h : t.Mirrors other) (ht : t.Foldable)
    (hi : (t.indexes.map (·.name)).Nodup) (direction : Change.Direction) :
    t.compare other direction = [] := by
  have index (i : Index) (hm : i ∈ t.indexes) : t.index? i.name = some i :=
    find?_key_of_mem hi hm
  have none : Change.ofTables t other = [] := by
    rw [Change.ofTables_nil_iff]
    refine ⟨by simp [Change.ofKind, h.kind], fun f hf => h.ofSourceField_eq_nil ht hf,
      fun g hg => h.ofTargetField_eq_nil ht hg, fun i hm => ?_, fun i hm => ?_⟩
    · refine Change.ofSourceIndex_eq_nil ?_
      rw [Table.index?, ← h.indexes]
      exact index i hm
    · rw [Change.ofTargetIndex, index i (h.indexes ▸ hm)]
      rfl
  rw [Table.compare, none, List.map_nil]

theorem differences_eq_nil (h : t.Mirrors other) (ht : t.Foldable) :
    Difference.ofTables t other = [] := by
  have options : Difference.ofOptions t other = [] := by
    simp [Difference.ofOptions, h.schemafull, h.drop, h.viewQuery, h.permissions]
  have fields : t.fields.filterMap (Difference.ofField? other) = [] := by
    refine List.filterMap_eq_nil_iff.mpr fun f hf => ?_
    unfold Difference.ofField?
    split
    · rfl
    · rename_i g hg
      have hmem : g ∈ other.fields := List.mem_of_find?_eq_some hg
      have hpath : g.path = Path.normal f.name := by simpa using List.find?_some hg
      have same := h.agrees ht hf hmem hpath.symm
      have clauses : Difference.ofClauses f g = [] := by
        simp [Difference.ofClauses, Difference.keywordIf, same.value, same.flexible,
          same.readonly, same.permissions]
      rw [clauses]
  rw [Difference.ofTables, options, fields, List.append_nil]

end Table.Mirrors

/-! ## The table of a model -/

namespace Table

variable {t : Table} {fs : List Field}

/-- Adding fields changes nothing else. -/
theorem foldl_addField_eq (fs : List Field) (t : Table) :
    fs.foldl addField t =
      { t with fields := fs.foldl (fun l f => putBy (·.name == f.name) f l) t.fields } := by
  induction fs generalizing t with
  | nil => rfl
  | cons f fs ih =>
    rw [List.foldl_cons, ih]
    rfl

theorem mem_foldl_addField {g : Field} (h : g ∈ (fs.foldl addField t).fields) :
    g ∈ t.fields ∨ g ∈ fs := by
  induction fs generalizing t with
  | nil => exact .inl h
  | cons f fs ih =>
    rcases ih h with hm | hm
    · rcases mem_of_mem_putBy hm with rfl | hm
      · exact .inr List.mem_cons_self
      · exact .inl hm
    · exact .inr (List.mem_cons_of_mem f hm)

theorem exists_mem_foldl_addField {name : Text}
    (h : name ∈ t.fields.map Field.name ∨ name ∈ fs.map Field.name) :
    name ∈ (fs.foldl addField t).fields.map Field.name := by
  induction fs generalizing t with
  | nil => exact h.resolve_right (by simp)
  | cons f fs ih =>
    refine ih ?_
    have keys : (t.addField f).fields.map Field.name =
        if f.name ∈ t.fields.map Field.name then t.fields.map Field.name
        else t.fields.map Field.name ++ [f.name] := map_key_putBy t.fields rfl
    rw [keys]
    rcases h with hm | hm
    · split <;> simp [hm]
    · rcases List.mem_cons.mp hm with rfl | hm
      · split
        · rename_i hin
          exact .inl hin
        · simp
      · exact .inr hm

end Table

namespace Model

variable {t : Table}

/-- The fields of all declarations of a model. -/
def flatFields (m : Model) : List Field := m.fields.flatMap fun (name, d) => d.flatten name

theorem mem_flatFields_ofTable_iff {x : Field} :
    x ∈ (ofTable t).flatFields ↔ ∃ f ∈ t.outermost, x ∈ (ofField t f).flatten f.name := by
  simp [flatFields, ofTable]

section View

variable (hview : t.kind = .view ↔ t.viewQuery.isSome = true)
include hview

theorem kind_ofTable : (ofTable t).kind = t.kind := by
  rw [ofTable]
  refine if_neg fun h => ?_
  have some := hview.mp h.1
  rw [Option.isNone_iff_eq_none.mp h.2] at some
  cases some

theorem viewQuery_ofTable : (ofTable t).viewQuery = t.viewQuery := by
  rw [ofTable]
  by_cases h : t.kind = .view
  · exact if_pos h
  · have none : t.viewQuery = none := by
      rw [← Option.not_isSome_iff_eq_none]
      exact fun hs => h (hview.mpr hs)
    simp only [if_neg h, none]

/-- The table of a model that was made from a table differs in nothing but the fields. -/
theorem table_ofTable :
    (ofTable t).table =
      { t with
        fields := (ofTable t).flatFields.foldl (fun l f => putBy (·.name == f.name) f l) []
        indexes := []
        events := [] } := by
  rw [table, Table.foldl_addField_eq]
  simp only [kind_ofTable hview, viewQuery_ofTable hview]
  rfl

end View

/-- Every field of the model's table is accounted for, and each field of the table has one. -/
theorem accounts_table (ht : t.Foldable) :
    (∀ g ∈ (ofTable t).table.fields, t.Accounts (ofTable t).table.fields g) ∧
      ∀ f ∈ t.fields, ∃ g ∈ (ofTable t).table.fields, g.path = f.path := by
  have subset : ∀ g ∈ (ofTable t).table.fields, g ∈ (ofTable t).flatFields := fun g hg =>
    (Table.mem_foldl_addField hg).resolve_left (by simp)
  have covers : ∀ x ∈ (ofTable t).flatFields, ∃ g ∈ (ofTable t).table.fields, g.path = x.path := by
    intro x hx
    obtain ⟨g, hg, hname⟩ := List.mem_map.mp
      (Table.exists_mem_foldl_addField (.inr (List.mem_map_of_mem hx)))
    exact ⟨g, hg, congrArg Path.normal hname⟩
  have outer : ∀ f ∈ t.outermost, ∀ x ∈ (ofField t f).flatten f.name, x ∈ (ofTable t).flatFields :=
    fun f hf x hx => mem_flatFields_ofTable_iff.mpr ⟨f, hf, hx⟩
  constructor
  · intro g hg
    obtain ⟨f, hf, hin⟩ := mem_flatFields_ofTable_iff.mp (subset g hg)
    have accounts := accounts_flatten_ofField ht f (List.mem_filter.mp hf).1 f.name rfl
      (outer f hf) g hin
    refine accounts.imp_right fun ⟨hd, hv, ha, himp, name, hname, p, hp, hpath⟩ => ?_
    obtain ⟨q, hq, hqpath⟩ := covers p hp
    exact ⟨hd, hv, ha, himp, name, hname, q, hq, hqpath.trans hpath⟩
  · intro f hf
    obtain ⟨name, hname, hsub⟩ := exists_flatten_subset ht outer hf
    obtain ⟨g, hg, hpath⟩ := covers _ (hsub _ List.mem_cons_self)
    exact ⟨g, hg, hpath.trans hname⟩

end Model

namespace Registration

/-- An index of a table as the code declares it. -/
def indexOf (table : Text) (i : Index) : IndexDeclaration :=
  { name := i.name, table := table, columns := i.columns, unique := i.unique }

/-- What the code registers for a table: its model and its indexes. -/
def ofTable (t : Table) : List Registration :=
  .model (Model.ofTable t) :: t.indexes.map fun i => .index (indexOf t.name i)

theorem index_indexOf {i : Index} (h : i.isDetectionOnly = false) (table : Text) :
    (indexOf table i).index = i := by
  rw [Index.isDetectionOnly, Bool.or_eq_false_iff] at h
  cases i
  simp_all [indexOf, IndexDeclaration.index]

theorem filterMap_model?_ofTable (t : Table) :
    (ofTable t).filterMap model? = [Model.ofTable t] := by
  simp [ofTable, model?, Function.comp_def]

theorem filterMap_index?_ofTable (t : Table) :
    (ofTable t).filterMap index? = t.indexes.map (indexOf t.name) := by
  have same : (index? ∘ fun i => Registration.index (indexOf t.name i)) =
      some ∘ indexOf t.name := rfl
  rw [ofTable, List.filterMap_cons, List.filterMap_map, same, List.filterMap_eq_map]
  rfl

theorem foldl_addIndex_singleton {t : Table} {is : List IndexDeclaration}
    (h : ∀ i ∈ is, i.table = t.name) (warnings : List Warning) :
    is.foldl addIndex { schema := ⟨[t]⟩, warnings := warnings } =
      { schema := ⟨[(is.map (·.index)).foldl Table.addIndex t]⟩, warnings := warnings } := by
  induction is generalizing t with
  | nil => rfl
  | cons i is ih =>
    have own : i.table = t.name := h i List.mem_cons_self
    have step : addIndex { schema := ⟨[t]⟩, warnings := warnings } i =
        { schema := ⟨[t.addIndex i.index]⟩, warnings := warnings } := by
      simp [addIndex, Schema.table?, Schema.modifyTable, modifyBy, own]
    have rest : ∀ j ∈ is, j.table = (t.addIndex i.index).name := fun j hj =>
      h j (List.mem_cons_of_mem i hj)
    rw [List.foldl_cons, step, ih rest]
    rfl

/-- A model of a table and its indexes are read without a warning as a table that mirrors it. -/
theorem exists_read_ofTable {t : Table} (ht : t.Foldable)
    (hview : t.kind = .view ↔ t.viewQuery.isSome = true)
    (hmanaged : ∀ i ∈ t.indexes, i.isDetectionOnly = false)
    (hi : (t.indexes.map (·.name)).Nodup) :
    ∃ other, read (ofTable t) = { schema := ⟨[other]⟩, warnings := [] } ∧ other.name = t.name ∧
      t.Mirrors other := by
  have indexes : (t.indexes.map (indexOf t.name)).map (·.index) = t.indexes := by
    rw [List.map_map]
    conv_rhs => rw [← List.map_id t.indexes]
    exact List.map_congr_left fun i hm => index_indexOf (hmanaged i hm) t.name
  have model := Model.table_ofTable hview
  have added : t.indexes.foldl Table.addIndex (Model.ofTable t).table =
      { (Model.ofTable t).table with indexes := t.indexes } := by
    have none : (Model.ofTable t).table.indexes = [] := by rw [model]
    rw [Table.foldl_addIndex (by rwa [none]), none, List.nil_append]
  refine ⟨{ (Model.ofTable t).table with indexes := t.indexes }, ?_, ?_, ?_⟩
  · rw [read, filterMap_model?_ofTable, filterMap_index?_ofTable]
    have start : [Model.ofTable t].foldl addModel {} =
        { schema := ⟨[(Model.ofTable t).table]⟩, warnings := [] } := rfl
    have own : ∀ i ∈ t.indexes.map (indexOf t.name), i.table = (Model.ofTable t).table.name := by
      intro i hm
      obtain ⟨j, -, rfl⟩ := List.mem_map.mp hm
      rw [model]
      rfl
    rw [start, foldl_addIndex_singleton own, indexes, added]
  · rw [model]
  · obtain ⟨accounts, covers⟩ := Model.accounts_table ht
    constructor
    case accounts => exact accounts
    case covers => exact covers
    all_goals rw [model]

end Registration

end SchemaDrift
