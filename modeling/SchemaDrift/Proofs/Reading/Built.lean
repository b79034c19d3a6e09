import SchemaDrift.Model.Basic
import SchemaDrift.Proofs.Change.About
import SchemaDrift.Proofs.Reading.Snapshot
import SchemaDrift.Proofs.Schema.TypeForms

namespace SchemaDrift

/-!
# Schemas that are built

Whatever a schema is read from, it is built table by table and member by member. Names are kept
apart by each step, and the paths of fields are not: a field takes the place of another one only if
both spell their path alike. A comparison goes by paths, so a schema differs from itself just where
two fields of one path say different things.
-/

namespace Field

/-- Whether a comparison sees no difference between two fields. -/
structure Alike (f g : Field) : Prop where
  type : TypeExpr.normal f.type = TypeExpr.normal g.type
  default : meaningful f.default = meaningful g.default
  assertion : meaningful f.assertion = meaningful g.assertion

theorem alike_iff {table : Text} {f g : Field} :
    f.Alike g ↔ Change.ofField table f g = [] := by
  rw [Change.ofField_eq_nil_iff]
  exact ⟨fun h => ⟨h.type, h.default, h.assertion⟩, fun h => ⟨h.1, h.2.1, h.2.2⟩⟩

theorem Alike.symm {f g : Field} (h : f.Alike g) : g.Alike f :=
  ⟨h.type.symm, h.default.symm, h.assertion.symm⟩

theorem Alike.trans {f g k : Field} (h : f.Alike g) (h' : g.Alike k) : f.Alike k :=
  ⟨h.type.trans h'.type, h.default.trans h'.default, h.assertion.trans h'.assertion⟩

end Field

/-! ## Tables -/

namespace Table

/-- Whether the fields and the indexes of a table have names of their own, as they are spelled. -/
structure NamedApart (t : Table) : Prop where
  fieldNames : (t.fields.map Field.name).Nodup
  indexNames : (t.indexes.map Index.name).Nodup

/-- The tables that come about by adding members to a table without any. -/
inductive Built : Table → Prop
  | bare {t : Table} (hfields : t.fields = []) (hindexes : t.indexes = []) : Built t
  | add {t : Table} (m : Member) (h : Built t) : Built (m.addTo t)

variable {t : Table}

theorem NamedApart.addTo (h : t.NamedApart) (m : Member) : (m.addTo t).NamedApart := by
  cases m with
  | field f => exact ⟨nodup_putBy h.fieldNames rfl, h.indexNames⟩
  | index i => exact ⟨h.fieldNames, nodup_putBy h.indexNames rfl⟩
  | event e => exact ⟨h.fieldNames, h.indexNames⟩

theorem Built.namedApart (h : t.Built) : t.NamedApart := by
  induction h with
  | bare hfields hindexes => exact ⟨by rw [hfields]; exact .nil, by rw [hindexes]; exact .nil⟩
  | add m _ ih => exact ih.addTo m

theorem Built.foldl_addTo (h : t.Built) (ms : List Member) : (ms.foldl Member.addTo t).Built := by
  induction ms generalizing t with
  | nil => exact h
  | cons m ms ih => exact ih (.add m h)

theorem Built.foldl_addField (h : t.Built) (fs : List Field) : (fs.foldl addField t).Built := by
  induction fs generalizing t with
  | nil => exact h
  | cons f fs ih => exact ih (.add (.field f) h)

theorem built_of_readTable {statement : Text} (h : Statement.readTable statement = .ok t) :
    t.Built :=
  have empty := TableInfo.empty_of_readTable h
  .bare empty.1 empty.2

end Table

/-! ## Schemas -/

namespace Schema

/-- Whether the tables have names of their own, and so have their fields and indexes. -/
structure NamedApart (s : Schema) : Prop where
  names : (s.tables.map Table.name).Nodup
  tables : ∀ t ∈ s.tables, t.NamedApart

/-- The schemas that come about by adding tables, and members to tables that are there. -/
inductive Built : Schema → Prop
  | empty : Built {}
  | addTable {s : Schema} {t : Table} (hs : Built s) (ht : t.Built) : Built (s.addTable t)
  | addMember {s : Schema} (m : Text × Member) (h : Built s) : Built (s.addMember m)

variable {s : Schema}

theorem NamedApart.addTable (h : s.NamedApart) {t : Table} (ht : t.NamedApart) :
    (s.addTable t).NamedApart where
  names := nodup_putBy h.names rfl
  tables u hu := by
    rcases mem_of_mem_putBy hu with rfl | hu
    · exact ht
    · exact h.tables u hu

theorem NamedApart.addMember (h : s.NamedApart) (m : Text × Member) :
    (s.addMember m).NamedApart where
  names := by
    rw [map_name_addMember]
    exact h.names
  tables t ht := by
    have changed : (s.addMember m).tables =
        s.tables.map fun t => if t.name == m.1 then m.2.addTo t else t :=
      modifyBy_eq_map h.names _ _
    rw [changed] at ht
    obtain ⟨u, hu, rfl⟩ := List.mem_map.mp ht
    split
    · exact (h.tables u hu).addTo m.2
    · exact h.tables u hu

theorem Built.namedApart (h : s.Built) : s.NamedApart := by
  induction h with
  | empty => exact ⟨.nil, fun t ht => nomatch ht⟩
  | addTable _ ht ih => exact ih.addTable ht.namedApart
  | addMember m _ ih => exact ih.addMember m

theorem Built.foldl_addTable (h : s.Built) {ts : List Table} (hts : ∀ t ∈ ts, t.Built) :
    (ts.foldl Schema.addTable s).Built := by
  induction ts generalizing s with
  | nil => exact h
  | cons t ts ih =>
    obtain ⟨ht, hts⟩ := List.forall_mem_cons.mp hts
    exact ih (.addTable h ht) hts

theorem Built.foldl_addMember (h : s.Built) (ms : List (Text × Member)) :
    (ms.foldl Schema.addMember s).Built := by
  induction ms generalizing s with
  | nil => exact h
  | cons m ms ih => exact ih (.addMember m h)

end Schema

/-! ## What is read is built -/

theorem Script.built_schemaOf (ss : List Text) : (schemaOf ss).Built := by
  refine Schema.Built.foldl_addMember (Schema.Built.empty.foldl_addTable fun t ht => ?_) _
  rw [tablesIn_eq, List.mem_filterMap] at ht
  obtain ⟨s, -, hs⟩ := ht
  rw [Statement.table?] at hs
  cases hread : Statement.readTable s with
  | error fault =>
    rw [hread] at hs
    cases hs
  | ok u =>
    rw [hread] at hs
    cases hs
    exact Table.built_of_readTable hread

theorem Script.built_read (script : Text) : (read script).schema.Built := by
  rw [read_eq]
  exact built_schemaOf _

theorem Client.built_reading (client : Client) : client.reading.schema.Built := by
  refine Schema.Built.empty.foldl_addTable fun t ht => ?_
  obtain ⟨e, -, he⟩ := List.mem_filterMap.mp ht
  obtain ⟨-, header, info, hheader, -, rfl⟩ := exists_of_tableFor? he
  exact (Table.built_of_readTable hheader).foldl_addTo info.members

namespace Registration

theorem built_foldl_addModel (ms : List Model) {r : Reading} (h : r.schema.Built) :
    (ms.foldl addModel r).schema.Built := by
  induction ms generalizing r with
  | nil => exact h
  | cons m ms ih => exact ih (.addTable h (Table.Built.foldl_addField (.bare rfl rfl) _))

theorem built_foldl_addIndex (is : List IndexDeclaration) {r : Reading} (h : r.schema.Built) :
    (is.foldl addIndex r).schema.Built := by
  induction is generalizing r with
  | nil => exact h
  | cons i is ih =>
    refine ih ?_
    unfold addIndex
    split
    · exact .addMember (i.table, .index i.index) h
    · exact h

theorem built_read (rs : List Registration) : (read rs).schema.Built :=
  built_foldl_addIndex _ (built_foldl_addModel _ .empty)

end Registration

/-! ## Comparing a schema with itself -/

namespace Table

variable {t : Table}

theorem exists_lastFieldAt? {f : Field} (hf : f ∈ t.fields) :
    ∃ g ∈ t.fields, g.path = f.path ∧ t.lastFieldAt? f.path = some g := by
  have found : (t.lastFieldAt? f.path).isSome = true :=
    find?_key_isSome_iff.mpr (List.mem_map_of_mem (List.mem_reverse.mpr hf))
  obtain ⟨g, hg⟩ := Option.isSome_iff_exists.mp found
  obtain ⟨hmem, hpath⟩ := find?_key_eq_some hg
  exact ⟨g, List.mem_reverse.mp hmem, hpath, hg⟩

/-- The last field of a path stands for all of them, and all are alike if each is like it. -/
theorem NamedApart.ofTables_self_eq_nil_iff (h : t.NamedApart) : Change.ofTables t t = [] ↔
    ∀ f ∈ t.fields, ∀ g ∈ t.fields, f.path = g.path → f.Alike g := by
  have kept {f g : Field} (hg : t.lastFieldAt? f.path = some g) :
      Change.ofSourceField t t f = [] ↔ f.Alike g := by
    rw [Change.ofSourceField, hg]
    exact Field.alike_iff.symm
  rw [Change.ofTables_nil_iff]
  constructor
  · rintro ⟨-, hfields, -⟩ f hf g hg hpath
    obtain ⟨last, -, -, hlast⟩ := exists_lastFieldAt? hf
    have hlast' : t.lastFieldAt? g.path = some last := hpath ▸ hlast
    exact ((kept hlast).mp (hfields f hf)).trans ((kept hlast').mp (hfields g hg)).symm
  · intro halike
    refine ⟨Change.ofKind_eq_nil_iff.mpr rfl, fun f hf => ?_, fun f hf => ?_, fun i hi => ?_,
      fun i hi => ?_⟩
    · obtain ⟨last, hmem, hpath, hlast⟩ := exists_lastFieldAt? hf
      exact (kept hlast).mpr (halike f hf last hmem hpath.symm)
    · obtain ⟨last, -, -, hlast⟩ := exists_lastFieldAt? hf
      rw [Change.ofTargetField, hlast]
      rfl
    · exact Change.ofSourceIndex_eq_nil (find?_key_of_mem h.indexNames hi)
    · exact Change.ofTargetIndex_eq_nil_iff.mpr
        (find?_key_isSome_iff.mpr (List.mem_map_of_mem hi))

end Table

namespace Schema

variable {s : Schema}

theorem NamedApart.compare_self_eq_nil_iff (h : s.NamedApart) (direction : Change.Direction) :
    s.compare s direction = [] ↔
      ∀ t ∈ s.tables, ∀ f ∈ t.fields, ∀ g ∈ t.fields, f.path = g.path → f.Alike g := by
  have found (t : Table) (ht : t ∈ s.tables) : s.table? t.name = some t :=
    find?_key_of_mem h.names ht
  have none : (s.tables.filter fun t => (s.table? t.name).isNone) = [] :=
    List.filter_eq_nil_iff.mpr fun t ht => by simp [found t ht]
  have last (t : Table) (ht : t ∈ s.tables) : s.lastTable? t.name = some t :=
    (find?_reverse h.names t.name).trans (found t ht)
  simp only [compare, none, List.map_nil, List.nil_append, List.flatMap_eq_nil_iff]
  refine forall₂_congr fun t ht => ?_
  rw [last t ht, ← (h.tables t ht).ofTables_self_eq_nil_iff]
  exact List.map_eq_nil_iff

/-- The schemas that are read from scripts, databases and models, and those that are put
together. -/
inductive Obtained : Schema → Prop
  | script (script : Text) : Obtained (Script.read script).schema
  | strict {script : Text} {s : Schema} (h : Script.readStrict script = .ok s) : Obtained s
  | database {client : Client} {r : Reading} (h : client.introspect = .ok r) : Obtained r.schema
  | models (registrations : List Registration) : Obtained (Registration.read registrations).schema
  | steps {s : Schema} (h : s.Built) : Obtained s

theorem Obtained.built (h : s.Obtained) : s.Built := by
  cases h with
  | script script => exact Script.built_read script
  | strict h =>
    rw [Script.eq_schemaOf_of_strict h]
    exact Script.built_schemaOf _
  | database h =>
    rw [Client.introspect_eq] at h
    split at h
    · cases h
    · cases h
      exact Client.built_reading _
  | models registrations => exact Registration.built_read registrations
  | steps h => exact h

/-- A schema that is read or put together has tables, fields and indexes with names of their own. It
does not differ from itself just if the fields at one path of a table are alike, and so if each
field has a path of its own, as no two spellings of one path are used. -/
theorem compare_self_of_obtained (h : s.Obtained) :
    (s.tables.map Table.name).Nodup ∧
    (∀ t ∈ s.tables, (t.indexes.map Index.name).Nodup ∧ (t.fields.map Field.name).Nodup) ∧
    (∀ direction, s.compare s direction = [] ↔
      ∀ t ∈ s.tables, ∀ f ∈ t.fields, ∀ g ∈ t.fields, f.path = g.path → f.Alike g) ∧
    ((∀ t ∈ s.tables, (t.fields.map Field.path).Nodup) →
      ∀ direction, s.compare s direction = []) := by
  have apart := h.built.namedApart
  refine ⟨apart.names, fun t ht => ?_, apart.compare_self_eq_nil_iff, fun hpaths direction => ?_⟩
  · exact ⟨(apart.tables t ht).indexNames, (apart.tables t ht).fieldNames⟩
  · refine (apart.compare_self_eq_nil_iff direction).mpr fun t ht f hf g hg hpath => ?_
    rw [List.inj_on_of_nodup_map (hpaths t ht) hf hg hpath]
    exact ⟨rfl, rfl, rfl⟩

/-- A script that spells each path in one way. -/
def plainScript : Text :=
  "DEFINE TABLE post; DEFINE FIELD tags ON post TYPE array<string>; " ++
    "DEFINE FIELD tags.* ON post TYPE string; DEFINE FIELD tags.* ON post TYPE int"

theorem compare_self_of_obtained_plainScript :
    (Script.read plainScript).schema.Obtained ∧
      (∀ t ∈ (Script.read plainScript).schema.tables, (t.fields.map Field.path).Nodup) ∧
      (Script.read plainScript).schema.compare (Script.read plainScript).schema .push = [] := by
  have obtained : (Script.read plainScript).schema.Obtained := .script plainScript
  have paths : ∀ t ∈ (Script.read plainScript).schema.tables, (t.fields.map Field.path).Nodup := by
    decide +kernel
  obtain ⟨-, -, -, same⟩ := compare_self_of_obtained obtained
  exact ⟨obtained, paths, same paths .push⟩

/-- A script that defines the elements of a field twice, once in each spelling of their path. -/
def twiceSpelled : Text :=
  "DEFINE TABLE post; DEFINE FIELD tags ON post TYPE array; " ++
    "DEFINE FIELD tags[*] ON post TYPE string; DEFINE FIELD tags.* ON post TYPE int"

def bracketed : Field := { name := "tags[*]", type := "string" }

def dotted : Field := { name := "tags.*", type := "int" }

/-- Both definitions of the elements are kept, and they differ from each other. -/
theorem not_compare_self :
    ¬∀ script direction,
      (Script.read script).schema.compare (Script.read script).schema direction = [] := by
  intro h
  have both : ∃ t ∈ (Script.read twiceSpelled).schema.tables,
      bracketed ∈ t.fields ∧ dotted ∈ t.fields := by
    decide +kernel
  obtain ⟨t, ht, hbracketed, hdotted⟩ := both
  have apart := (Script.built_read twiceSpelled).namedApart
  have same : bracketed.Alike dotted := (apart.compare_self_eq_nil_iff .push).mp
    (h twiceSpelled .push) t ht bracketed hbracketed dotted hdotted (by decide)
  have string : TypeExpr.normal bracketed.type = "string" :=
    (TypeExpr.IsAtom.settled (a := "string") (by decide)).normal
  have int : TypeExpr.normal dotted.type = "int" :=
    (TypeExpr.IsAtom.settled (a := "int") (by decide)).normal
  have type := same.type
  rw [string, int] at type
  exact absurd type (by decide)

end Schema

end SchemaDrift
