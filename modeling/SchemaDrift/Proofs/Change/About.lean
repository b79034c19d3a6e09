import SchemaDrift.Change.Compare
import SchemaDrift.Proofs.Schema.Put

namespace SchemaDrift

/-!
# What changes are about

Each change of a table names the table of the source and the field or the index that differs.
-/

theorem Table.Keyed.lastFieldAt?_eq {t : Table} (h : t.Keyed) (path : Text) :
    t.lastFieldAt? path = t.fields.find? (Field.path · == path) := find?_reverse h.paths path

theorem Schema.Keyed.lastTable?_eq {s : Schema} (h : s.Keyed) (name : Text) :
    s.lastTable? name = s.table? name := find?_reverse h.names name

namespace Change

variable {source target : Table} {c : Change}

theorem mem_ofKind (h : c ∈ ofKind source target) :
    c.kind = .tableTypeChanged ∧ c.table = source.name ∧ c.field = none ∧ c.index = none := by
  unfold ofKind at h
  split at h
  · cases h
  · rw [List.mem_singleton.mp h]
    exact ⟨rfl, rfl, rfl, rfl⟩

/-- The kinds of changes that define a field. -/
def Kind.definesField : Kind → Bool
  | .fieldAdded | .fieldTypeChanged | .fieldDefaultChanged | .fieldAssertionChanged => true
  | _ => false

theorem mem_ofField {table : Text} {f g : Field} (h : c ∈ ofField table f g) :
    (c.kind.definesField = true ∧ c.kind ≠ .fieldAdded) ∧ c.table = table ∧
      c.field = some f.name ∧ c.index = none := by
  have one {p : Prop} [Decidable p] {d : Change} (hd : c ∈ if p then [d] else []) : c = d := by
    split at hd
    · exact List.mem_singleton.mp hd
    · cases hd
  rcases List.mem_append.mp h with h | h
  · rcases List.mem_append.mp h with h | h
    · rw [one h]
      exact ⟨⟨rfl, Kind.noConfusion⟩, rfl, rfl, rfl⟩
    · rw [one h]
      exact ⟨⟨rfl, Kind.noConfusion⟩, rfl, rfl, rfl⟩
  · rw [one h]
    exact ⟨⟨rfl, Kind.noConfusion⟩, rfl, rfl, rfl⟩

theorem mem_ofSourceField {f : Field} (h : c ∈ ofSourceField source target f) :
    c.kind.definesField = true ∧ c.table = source.name ∧ c.field = some f.name ∧
      c.index = none := by
  unfold ofSourceField at h
  split at h
  · obtain ⟨⟨hkind, -⟩, hrest⟩ := mem_ofField h
    exact ⟨hkind, hrest⟩
  · split at h
    · cases h
    · rw [List.mem_singleton.mp h]
      exact ⟨rfl, rfl, rfl, rfl⟩

theorem mem_ofTargetField {f : Field} (h : c ∈ ofTargetField source target f) :
    c.kind = .fieldRemoved ∧ c.table = source.name ∧ c.field = some f.name ∧ c.index = none := by
  unfold ofTargetField at h
  split at h
  · cases h
  · rw [List.mem_singleton.mp h]
    exact ⟨rfl, rfl, rfl, rfl⟩

/-- A field is added only if the target has no field at its path. -/
theorem lastFieldAt?_of_fieldAdded {f : Field} (h : c ∈ ofSourceField source target f)
    (hkind : c.kind = .fieldAdded) : target.lastFieldAt? f.path = none := by
  unfold ofSourceField at h
  split at h
  · exact absurd hkind (mem_ofField h).1.2
  · assumption

theorem mem_ofSourceIndex {i : Index} (h : c ∈ ofSourceIndex source target i) :
    (c.kind = .indexAdded ∨ c.kind = .indexModified) ∧ c.table = source.name ∧ c.field = none ∧
      c.index = some i.name := by
  unfold ofSourceIndex at h
  split at h
  · rw [List.mem_singleton.mp h]
    exact ⟨.inl rfl, rfl, rfl, rfl⟩
  · split at h
    · rw [List.mem_singleton.mp h]
      exact ⟨.inr rfl, rfl, rfl, rfl⟩
    · cases h

theorem index?_of_indexAdded {i : Index} (h : c ∈ ofSourceIndex source target i)
    (hkind : c.kind = .indexAdded) : target.index? i.name = none := by
  unfold ofSourceIndex at h
  split at h
  · assumption
  · split at h
    · rw [List.mem_singleton.mp h] at hkind
      cases hkind
    · cases h

theorem mem_ofTargetIndex {i : Index} (h : c ∈ ofTargetIndex source i) :
    c.kind = .indexRemoved ∧ c.table = source.name ∧ c.field = none ∧ c.index = some i.name ∧
      source.index? i.name = none := by
  unfold ofTargetIndex at h
  split at h
  · cases h
  · rename_i hnone
    rw [List.mem_singleton.mp h]
    exact ⟨rfl, rfl, rfl, rfl, by simpa using hnone⟩

theorem mem_ofTables : c ∈ ofTables source target ↔
    c ∈ ofKind source target ∨ (∃ f ∈ source.fields, c ∈ ofSourceField source target f) ∨
      (∃ f ∈ target.fields, c ∈ ofTargetField source target f) ∨
        (∃ i ∈ source.indexes, c ∈ ofSourceIndex source target i) ∨
          ∃ i ∈ target.indexes, c ∈ ofTargetIndex source i := by
  simp only [ofTables, List.mem_append, List.mem_flatMap, or_assoc]

theorem table_of_mem_ofTables (h : c ∈ ofTables source target) : c.table = source.name := by
  rcases mem_ofTables.mp h with h | ⟨f, -, h⟩ | ⟨f, -, h⟩ | ⟨i, -, h⟩ | ⟨i, -, h⟩
  · exact (mem_ofKind h).2.1
  · exact (mem_ofSourceField h).2.1
  · exact (mem_ofTargetField h).2.1
  · exact (mem_ofSourceIndex h).2.1
  · exact (mem_ofTargetIndex h).2.1

theorem kind_ne_tableAdded (h : c ∈ ofTables source target) : c.kind ≠ .tableAdded := by
  intro hkind
  rcases mem_ofTables.mp h with h | ⟨f, -, h⟩ | ⟨f, -, h⟩ | ⟨i, -, h⟩ | ⟨i, -, h⟩
  · rw [(mem_ofKind h).1] at hkind
    cases hkind
  · have defines := (mem_ofSourceField h).1
    rw [hkind] at defines
    cases defines
  · rw [(mem_ofTargetField h).1] at hkind
    cases hkind
  · have added := (mem_ofSourceIndex h).1
    rw [hkind] at added
    rcases added with added | added <;> cases added
  · rw [(mem_ofTargetIndex h).1] at hkind
    cases hkind

theorem mem_compare {source target : Schema} {direction : Direction} :
    c ∈ source.compare target direction ↔
      (∃ s ∈ source.tables, target.table? s.name = none ∧
        c = describe direction { kind := .tableAdded, table := s.name }) ∨
      (∃ t ∈ target.tables, source.table? t.name = none ∧
        c = describe direction { kind := .tableRemoved, table := t.name }) ∨
      ∃ s ∈ source.tables, ∃ t, target.lastTable? s.name = some t ∧
        ∃ d ∈ ofTables s t, c = describe direction d := by
  rw [Schema.compare, List.mem_append, List.mem_append, or_assoc]
  apply or_congr
  · simp only [List.mem_map, List.mem_filter, Option.isNone_iff_eq_none]
    constructor
    · rintro ⟨s, ⟨hs, hnone⟩, rfl⟩
      exact ⟨s, hs, hnone, rfl⟩
    · rintro ⟨s, hs, hnone, rfl⟩
      exact ⟨s, ⟨hs, hnone⟩, rfl⟩
  · apply or_congr
    · simp only [List.mem_map, List.mem_filter, Option.isNone_iff_eq_none]
      constructor
      · rintro ⟨t, ⟨ht, hnone⟩, rfl⟩
        exact ⟨t, ht, hnone, rfl⟩
      · rintro ⟨t, ht, hnone, rfl⟩
        exact ⟨t, ⟨ht, hnone⟩, rfl⟩
    · rw [List.mem_flatMap]
      constructor
      · rintro ⟨s, hs, hc⟩
        cases hlast : target.lastTable? s.name with
        | none =>
          rw [hlast] at hc
          cases hc
        | some t =>
          rw [hlast] at hc
          obtain ⟨d, hd, rfl⟩ := List.mem_map.mp hc
          exact ⟨s, hs, t, hlast, d, hd, rfl⟩
      · rintro ⟨s, hs, t, hlast, d, hd, rfl⟩
        refine ⟨s, hs, ?_⟩
        rw [hlast]
        exact List.mem_map_of_mem hd

/-! ## No changes -/

theorem ofKind_eq_nil_iff : ofKind source target = [] ↔ source.kind = target.kind := by
  unfold ofKind
  split
  · rename_i h
    exact iff_of_true rfl h
  · rename_i h
    exact iff_of_false (List.cons_ne_nil _ _) h

theorem ofField_eq_nil_iff {table : Text} {f g : Field} : ofField table f g = [] ↔
    TypeExpr.normal f.type = TypeExpr.normal g.type ∧
      meaningful f.default = meaningful g.default ∧
        meaningful f.assertion = meaningful g.assertion := by
  simp only [ofField, List.append_eq_nil_iff, ite_eq_right_iff, List.cons_ne_nil, imp_false,
    not_not, and_assoc, ne_eq]

/-- A change of the type is reported just if the normal forms of the types differ. -/
theorem exists_fieldTypeChanged_iff {table : Text} {f g : Field} :
    (∃ c ∈ ofField table f g, c.kind = .fieldTypeChanged) ↔
      TypeExpr.normal f.type ≠ TypeExpr.normal g.type := by
  constructor
  · rintro ⟨c, hc, hkind⟩ same
    simp only [ofField, same, ne_eq, not_true_eq_false, if_false, List.nil_append] at hc
    rcases List.mem_append.mp hc with hc | hc
    · split at hc
      · rw [List.mem_singleton.mp hc] at hkind
        cases hkind
      · cases hc
    · split at hc
      · rw [List.mem_singleton.mp hc] at hkind
        cases hkind
      · cases hc
  · intro hne
    rw [ofField, if_pos hne]
    exact ⟨_, List.mem_cons_self, rfl⟩

theorem ofTargetIndex_eq_nil_iff {i : Index} :
    ofTargetIndex source i = [] ↔ (source.index? i.name).isSome = true := by
  rw [ofTargetIndex]
  split
  · rename_i h
    exact iff_of_true rfl h
  · rename_i h
    exact iff_of_false (List.cons_ne_nil _ _) h

/-! ## Counterparts -/

/-- A field of the target is given up unless the source has its path, or its container says as much
as it says. -/
theorem length_ofTargetField (f : Field) (hf : f.isWildcard = false)
    (hn : (source.fields.map Field.path).Nodup) : (ofTargetField source target f).length =
      if f.path ∈ source.fields.map Field.path then 0 else 1 := by
  have implied : target.implies f = false := by simp [Table.implies, hf]
  have last : source.lastFieldAt? f.path = source.fields.find? (Field.path · == f.path) :=
    find?_reverse hn f.path
  simp only [ofTargetField, implied, last, Bool.or_false, find?_key_isSome_iff]
  split <;> rfl

theorem length_ofTargetIndex (i : Index) : (ofTargetIndex source i).length =
    if i.name ∈ source.indexes.map Index.name then 0 else 1 := by
  have found : source.index? i.name = source.indexes.find? (Index.name · == i.name) := rfl
  simp only [ofTargetIndex, found, find?_key_isSome_iff]
  split <;> rfl

@[simp] theorem ofField_self (table : Text) (f : Field) : ofField table f f = [] := by
  simp [ofField]

theorem ofSourceIndex_eq_nil {i : Index} (h : target.index? i.name = some i) :
    ofSourceIndex source target i = [] := by
  rw [ofSourceIndex, h]
  simp

end Change

end SchemaDrift
