import SchemaDrift.Plan.Basic
import SchemaDrift.Proofs.Change.Mirror
import SchemaDrift.Proofs.Model.Inside

namespace SchemaDrift

/-!
# Files that are kept

The file of a table is kept if the table of the code agrees with that of the database: no change and
no difference is found. What the two comparisons together do not see is the flags and the
permissions of an element constraint that only one side has and its container implies.
-/

namespace Index

/-- What an index says besides its name. -/
def definition (i : Index) : List Text × Bool := (i.columns, i.unique)

end Index

namespace Field

/-- Whether two fields say the same. -/
structure Same (f g : Field) : Prop where
  type : TypeExpr.normal f.type = TypeExpr.normal g.type
  default : meaningful f.default = meaningful g.default
  assertion : meaningful f.assertion = meaningful g.assertion
  value : meaningful f.value = meaningful g.value
  flexible : f.flexible = g.flexible
  readonly : f.readonly = g.readonly
  permissions : f.permissions = g.permissions

/-- Whether a field has no flags and grants nothing. -/
structure Bare (f : Field) : Prop where
  flexible : f.flexible = false
  readonly : f.readonly = false
  permissions : f.permissions = {}

end Field

namespace Table

/-- Whether a field is an element constraint without expressions, of the type that the type of the
container around it names. -/
structure Repeats (t : Table) (f : Field) : Prop where
  wildcard : f.isWildcard = true
  default : f.default = none
  value : f.value = none
  assertion : f.assertion = none
  type : ∃ parent ∈ t.fields, Path.parent? f.name = some parent.path ∧
    TypeExpr.element? parent.type = some (TypeExpr.normal f.type)

/-- The fields at whose paths the other table has none. -/
def fieldsBeside (t other : Table) : List Field := unmatchedBy Field.path t.fields other.fields

/-- Whether the tables of the database and of the code say the same, apart from implied element
constraints. -/
structure Agrees (database code : Table) : Prop where
  kind : database.kind = code.kind
  schemafull : database.schemafull = code.schemafull
  drop : database.drop = code.drop
  viewQuery : meaningful database.viewQuery = meaningful code.viewQuery
  permissions : database.permissions = code.permissions
  indexes : ∀ name, (database.index? name).map Index.definition =
    (code.index? name).map Index.definition
  fields : ∀ f ∈ database.fields, ∀ g ∈ code.fields, g.path = f.path → f.Same g
  ofDatabase : ∀ f ∈ database.fieldsBeside code, database.Repeats f
  ofCode : ∀ f ∈ code.fieldsBeside database, code.Repeats f

/-- Whether the tables say the same and what only one of them has says nothing of its own. -/
structure Indistinct (database code : Table) : Prop where
  agrees : database.Agrees code
  bare : ∀ f ∈ database.fieldsBeside code ++ code.fieldsBeside database, f.Bare

variable {s t : Table}

theorem implies_iff (hn : (t.fields.map Field.path).Nodup) {f : Field} :
    t.implies f = true ↔ t.Repeats f := by
  have container : ((((Path.parent? f.name).bind t.fieldAt?).bind fun parent =>
      TypeExpr.element? parent.type) == some (TypeExpr.normal f.type)) = true ↔
        ∃ parent ∈ t.fields, Path.parent? f.name = some parent.path ∧
          TypeExpr.element? parent.type = some (TypeExpr.normal f.type) := by
    rw [beq_iff_eq, Option.bind_eq_some_iff]
    constructor
    · rintro ⟨parent, hparent, htype⟩
      obtain ⟨path, hpath, hat⟩ := Option.bind_eq_some_iff.mp hparent
      obtain ⟨hm, hp⟩ := (fieldAt?_eq_some_iff hn).mp hat
      exact ⟨parent, hm, by rw [hpath, hp, Path.normal_of_parent? hpath], htype⟩
    · rintro ⟨parent, hm, hpath, htype⟩
      refine ⟨parent, ?_, htype⟩
      rw [hpath, Option.bind_some]
      exact (fieldAt?_eq_some_iff hn).mpr ⟨hm, (Path.normal_of_parent? hpath).symm⟩
  simp only [implies, Bool.and_eq_true, Option.isNone_iff_eq_none, container]
  constructor
  · rintro ⟨⟨⟨⟨hwildcard, hdefault⟩, hvalue⟩, hassertion⟩, htype⟩
    exact ⟨hwildcard, hdefault, hvalue, hassertion, htype⟩
  · rintro ⟨hwildcard, hdefault, hvalue, hassertion, htype⟩
    exact ⟨⟨⟨⟨hwildcard, hdefault⟩, hvalue⟩, hassertion⟩, htype⟩

theorem mem_fieldsBeside {f : Field} : f ∈ t.fieldsBeside s ↔
    f ∈ t.fields ∧ s.fields.find? (Field.path · == f.path) = none := by
  rw [fieldsBeside, unmatchedBy, List.mem_filter, Option.isNone_iff_eq_none]

/-- What holds of the field at a path holds of every field there. -/
theorem Keyed.forall_at_iff (h : t.Keyed) {path : Text} {P : Field → Prop} :
    (∀ g ∈ t.fields, g.path = path → P g) ↔
      ∀ g, t.fields.find? (Field.path · == path) = some g → P g := by
  constructor
  · intro hall g hg
    obtain ⟨hm, hpath⟩ := find?_key_eq_some hg
    exact hall g hm hpath
  · rintro hall g hm rfl
    exact hall g (find?_key_of_mem h.paths hm)

end Table

/-! ## What each comparison sees -/

namespace Change

variable {s t : Table} {f g : Field}

theorem ofSourceField_eq_nil_iff (ht : t.Keyed) : ofSourceField s t f = [] ↔
    (∀ g ∈ t.fields, g.path = f.path → ofField s.name f g = []) ∧
      (t.fields.find? (Field.path · == f.path) = none → s.implies f = true) := by
  rw [ht.forall_at_iff, ofSourceField, ht.lastFieldAt?_eq]
  cases t.fields.find? (Field.path · == f.path) with
  | none => simp
  | some g => simp

theorem ofTargetField_eq_nil_iff (hs : s.Keyed) : ofTargetField s t f = [] ↔
    (s.fields.find? (Field.path · == f.path) = none → t.implies f = true) := by
  rw [ofTargetField, hs.lastFieldAt?_eq]
  cases s.fields.find? (Field.path · == f.path) with
  | none => simp
  | some g => simp

theorem ofSourceIndex_eq_nil_iff {i : Index} : ofSourceIndex s t i = [] ↔
    (t.index? i.name).map Index.definition = some i.definition := by
  rw [ofSourceIndex]
  cases t.index? i.name with
  | none => simp
  | some j => simp [Index.definition, not_or]

theorem indexes_eq_nil_iff (hs : s.Keyed) :
    ((∀ i ∈ s.indexes, ofSourceIndex s t i = []) ∧ ∀ i ∈ t.indexes, ofTargetIndex s i = []) ↔
      ∀ name, (s.index? name).map Index.definition = (t.index? name).map Index.definition := by
  simp only [ofSourceIndex_eq_nil_iff, ofTargetIndex_eq_nil_iff]
  constructor
  · rintro ⟨hsource, htarget⟩ name
    cases hi : s.index? name with
    | some i =>
      obtain ⟨hm, rfl⟩ := find?_key_eq_some hi
      exact (hsource i hm).symm
    | none =>
      cases hj : t.index? name with
      | none => rfl
      | some j =>
        obtain ⟨hm, rfl⟩ := find?_key_eq_some hj
        have found := htarget j hm
        rw [hi] at found
        cases found
  · intro h
    constructor
    · intro i hi
      rw [← h, hs.index?_of_mem hi]
      rfl
    · intro j hj
      have there : (t.index? j.name).isSome = true :=
        find?_key_isSome_iff.mpr (List.mem_map_of_mem hj)
      rw [← Option.isSome_map (f := Index.definition), h, Option.isSome_map, there]

theorem ofTables_eq_nil_iff (hs : s.Keyed) (ht : t.Keyed) : ofTables s t = [] ↔
    s.kind = t.kind ∧
      (∀ f ∈ s.fields, ∀ g ∈ t.fields, g.path = f.path → ofField s.name f g = []) ∧
      (∀ f ∈ s.fieldsBeside t, s.implies f = true) ∧
      (∀ f ∈ t.fieldsBeside s, t.implies f = true) ∧
      ∀ name, (s.index? name).map Index.definition = (t.index? name).map Index.definition := by
  rw [ofTables_nil_iff, ofKind_eq_nil_iff, indexes_eq_nil_iff hs]
  simp only [ofSourceField_eq_nil_iff ht, ofTargetField_eq_nil_iff hs, Table.mem_fieldsBeside,
    forall_and, and_imp, and_assoc]

end Change

namespace Difference

variable {s t : Table} {f g : Field}

theorem keywordIf_eq_nil_iff {keyword : Text} {differs : Bool} :
    keywordIf keyword differs = [] ↔ differs = false := by
  cases differs <;> simp [keywordIf]

theorem ofClauses_eq_nil_iff : ofClauses f g = [] ↔
    meaningful f.value = meaningful g.value ∧ f.flexible = g.flexible ∧ f.readonly = g.readonly ∧
      f.permissions = g.permissions := by
  simp only [ofClauses, List.append_eq_nil_iff, keywordIf_eq_nil_iff, bne_eq_false_iff_eq,
    and_assoc]

theorem ofField?_eq_none_iff (ht : t.Keyed) : ofField? t f = none ↔
    ∀ g ∈ t.fields, g.path = f.path → ofClauses f g = [] := by
  have at_path : t.fieldAt? f.name = t.fields.find? (Field.path · == f.path) := rfl
  rw [ht.forall_at_iff, ofField?, at_path]
  cases t.fields.find? (Field.path · == f.path) with
  | none => simp
  | some g => cases h : ofClauses f g <;> simp [h]

theorem ofTables_eq_nil_iff (ht : t.Keyed) : ofTables s t = [] ↔
    (s.schemafull = t.schemafull ∧ s.drop = t.drop ∧
      meaningful s.viewQuery = meaningful t.viewQuery ∧ s.permissions = t.permissions) ∧
      ∀ f ∈ s.fields, ∀ g ∈ t.fields, g.path = f.path → ofClauses f g = [] := by
  simp only [ofTables, ofOptions, List.append_eq_nil_iff, List.filterMap_eq_nil_iff,
    ofField?_eq_none_iff ht, ite_eq_left_iff, List.cons_ne_nil, imp_false, not_not, and_assoc]

end Difference

/-! ## What agrees -/

namespace Plan

variable {database code : Table}

theorem agree_iff (hd : database.Keyed) (hc : code.Keyed) :
    agree database code = true ↔ database.Agrees code := by
  have changes : database.equivalent code = true ↔ Change.ofTables database code = [] := by
    rw [Table.equivalent, List.isEmpty_iff, Table.compare, List.map_eq_nil_iff]
  rw [agree, Bool.and_eq_true, changes, Change.ofTables_eq_nil_iff hd hc, List.isEmpty_iff,
    Difference.ofTables_eq_nil_iff hc]
  simp only [Table.implies_iff hd.paths, Table.implies_iff hc.paths, Change.ofField_eq_nil_iff,
    Difference.ofClauses_eq_nil_iff]
  constructor
  · rintro ⟨⟨hkind, hfields, hbeside, hbeside', hindexes⟩, ⟨hmode, hdrop, hquery, hgrants⟩, hrest⟩
    refine ⟨hkind, hmode, hdrop, hquery, hgrants, hindexes, fun f hf g hg hpath => ?_, hbeside,
      hbeside'⟩
    obtain ⟨htype, hdefault, hassertion⟩ := hfields f hf g hg hpath
    obtain ⟨hvalue, hflexible, hreadonly, hpermissions⟩ := hrest f hf g hg hpath
    exact ⟨htype, hdefault, hassertion, hvalue, hflexible, hreadonly, hpermissions⟩
  · intro h
    refine ⟨⟨h.kind, fun f hf g hg hpath => ?_, h.ofDatabase, h.ofCode, h.indexes⟩,
      ⟨h.schemafull, h.drop, h.viewQuery, h.permissions⟩, fun f hf g hg hpath => ?_⟩
    · have same := h.fields f hf g hg hpath
      exact ⟨same.type, same.default, same.assertion⟩
    · have same := h.fields f hf g hg hpath
      exact ⟨same.value, same.flexible, same.readonly, same.permissions⟩

theorem tableChange?_eq_none_iff {existing : Dict Text} {schema : Schema} {markers : Merge.Markers}
    {current : Text} (hfile : existing.get? (Source.fileOf database.name) = some current)
    (hcode : schema.table? database.name = some code) :
    tableChange? existing (some schema) markers database = none ↔
      current = Source.file database ∨ agree database code = true := by
  simp only [tableChange?, hfile, Option.bind_some, hcode]
  by_cases hsame : current = Source.file database
  · simp [hsame]
  · cases agree database code <;> simp [hsame]

/-- What keeps a file. The file of a table is kept if it is the generated one or if the table of the
code agrees with that of the database. The flags and the permissions of the element constraints that
only one side has are not looked at, so nothing at all differs only if these have none. -/
theorem kept_iff_agrees {existing : Dict Text} {schema : Schema} {markers : Merge.Markers}
    {current : Text} (hd : database.Keyed) (hc : code.Keyed)
    (hfile : existing.get? (Source.fileOf database.name) = some current)
    (hcode : schema.table? database.name = some code) :
    (tableChange? existing (some schema) markers database = none ↔
      current = Source.file database ∨ database.Agrees code) ∧
    (agree database code = true ↔ database.Agrees code) ∧
    (database.Indistinct code ↔ agree database code = true ∧
      ∀ f ∈ database.fieldsBeside code ++ code.fieldsBeside database, f.Bare) := by
  refine ⟨?_, agree_iff hd hc, ?_⟩
  · rw [tableChange?_eq_none_iff hfile hcode, agree_iff hd hc]
  · rw [agree_iff hd hc]
    exact ⟨fun h => ⟨h.agrees, h.bare⟩, fun h => ⟨h.1, h.2⟩⟩

/-- A post with tags. -/
def tagged : Table :=
  { name := "post", fields := [{ name := "tags", type := "array<string>" }] }

/-- The post where the tags cannot be changed one by one. -/
def frozen : Table :=
  { tagged with
    fields := tagged.fields ++ [{ name := "tags.*", type := "string", readonly := true }] }

theorem element?_tags : TypeExpr.element? "array<string>" = some (TypeExpr.normal "string") := by
  have string : TypeExpr.Settled "string" := TypeExpr.IsAtom.settled (by decide)
  have text : TypeExpr.normal "string" = "string" := string.normal
  have settled : TypeExpr.Settled (TypeExpr.application "array" ["string"]) := by
    refine TypeExpr.settled_application (by decide) (List.cons_ne_nil _ _) (fun a ha => ?_)
      (fun _ => by decide)
    rw [List.mem_singleton.mp ha]
    exact string
  have array : TypeExpr.normal "array<string>" = "array<string>" := settled.normal
  rw [TypeExpr.element?, array, text, TypeExpr.unwrapOption]
  decide

theorem agrees_frozen : frozen.Agrees tagged where
  kind := rfl
  schemafull := rfl
  drop := rfl
  viewQuery := rfl
  permissions := rfl
  indexes _ := rfl
  fields f hf g hg hpath := by
    rw [List.mem_singleton.mp hg] at hpath ⊢
    rcases List.mem_cons.mp hf with rfl | hf
    · exact ⟨rfl, rfl, rfl, rfl, rfl, rfl, rfl⟩
    · rw [List.mem_singleton.mp hf] at hpath
      exact absurd hpath (by decide)
  ofDatabase f hf := by
    have beside : frozen.fieldsBeside tagged =
        [{ name := "tags.*", type := "string", readonly := true }] := by decide
    rw [beside] at hf
    rw [List.mem_singleton.mp hf]
    exact ⟨by decide, rfl, rfl, rfl, _, List.mem_cons_self, by decide, element?_tags⟩
  ofCode f hf := by
    have beside : tagged.fieldsBeside frozen = [] := by decide
    rw [beside] at hf
    cases hf

theorem kept_iff_agrees_frozen : (frozen.Keyed ∧ tagged.Keyed) ∧
    tableChange? (.ofList [("post.rs", "")]) (some ⟨[tagged]⟩) {} frozen = none := by
  have keyed : frozen.Keyed ∧ tagged.Keyed := by decide
  have file : (Dict.ofList [("post.rs", ([] : Text))]).get?
      (Source.fileOf frozen.name) = some [] := by
    decide
  exact ⟨keyed, (kept_iff_agrees keyed.1 keyed.2 file (by decide)).1.mpr (.inr agrees_frozen)⟩

/-- A file is kept although an element constraint of the database is read-only. -/
theorem not_agree_indistinct :
    ¬∀ database code : Table, database.Keyed → code.Keyed → agree database code = true →
      database.Indistinct code := by
  intro h
  have keyed : frozen.Keyed ∧ tagged.Keyed := by decide
  have same := h frozen tagged keyed.1 keyed.2 ((agree_iff keyed.1 keyed.2).mpr agrees_frozen)
  have element : { name := "tags.*", type := "string", readonly := true } ∈
      frozen.fieldsBeside tagged ++ tagged.fieldsBeside frozen := by decide
  exact absurd (same.bare _ element).readonly (by decide)

end Plan

end SchemaDrift
