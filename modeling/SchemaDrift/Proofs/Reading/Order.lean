import SchemaDrift.Proofs.Reading.Built

namespace SchemaDrift

/-!
# The order of statements

A statement contributes to the tables of one name, or to the members of one kind in one table. The
order of the statements with the same contribution counts, since a later one takes the place of an
earlier one or stands behind it. The order of all others does not.
-/

namespace Table

/-- Whether two tables are the same but for their members. -/
structure SameHeader (t u : Table) : Prop where
  name : t.name = u.name
  kind : t.kind = u.kind
  drop : t.drop = u.drop
  schemafull : t.schemafull = u.schemafull
  viewQuery : t.viewQuery = u.viewQuery
  permissions : t.permissions = u.permissions

theorem SameHeader.eq {t u : Table} (h : t.SameHeader u) (hfields : t.fields = u.fields)
    (hindexes : t.indexes = u.indexes) (hevents : t.events = u.events) : t = u := by
  obtain ⟨h₁, h₂, h₃, h₄, h₅, h₆⟩ := h
  cases t
  cases u
  simp_all

theorem sameHeader_foldl_addTo (ms : List Member) (t : Table) :
    (ms.foldl Member.addTo t).SameHeader t := by
  induction ms generalizing t with
  | nil => exact ⟨rfl, rfl, rfl, rfl, rfl, rfl⟩
  | cons m ms ih =>
    obtain ⟨h₁, h₂, h₃, h₄, h₅, h₆⟩ := ih (m.addTo t)
    cases m <;> exact ⟨h₁, h₂, h₃, h₄, h₅, h₆⟩

/-- A part of a table to which only the members of one kind add depends on them alone. -/
theorem part_foldl_addTo {α : Type} {part : Table → α} {noun : Noun}
    (hown : ∀ m : Member, m.noun = noun → ∀ t u, part t = part u →
      part (m.addTo t) = part (m.addTo u))
    (hother : ∀ m : Member, m.noun ≠ noun → ∀ t, part (m.addTo t) = part t)
    (ms : List Member) {t u : Table} (h : part t = part u) :
    part (ms.foldl Member.addTo t) =
      part ((ms.filter (·.noun = noun)).foldl Member.addTo u) := by
  induction ms generalizing t u with
  | nil => exact h
  | cons m ms ih =>
    rw [List.foldl_cons, List.filter_cons]
    by_cases hm : m.noun = noun
    · rw [if_pos (by simpa using hm), List.foldl_cons]
      exact ih (hown m hm t u h)
    · rw [if_neg (by simpa using hm)]
      exact ih ((hother m hm t).trans h)

/-- Members of different kinds can be added in any order. -/
theorem foldl_addTo_congr {ms ms' : List Member}
    (h : ∀ noun : Noun, ms.filter (·.noun = noun) = ms'.filter (·.noun = noun)) (t : Table) :
    ms.foldl Member.addTo t = ms'.foldl Member.addTo t := by
  have part {α : Type} {part : Table → α} (noun : Noun)
      (hown : ∀ m : Member, m.noun = noun → ∀ t u, part t = part u →
        part (m.addTo t) = part (m.addTo u))
      (hother : ∀ m : Member, m.noun ≠ noun → ∀ t, part (m.addTo t) = part t) :
      part (ms.foldl Member.addTo t) = part (ms'.foldl Member.addTo t) := by
    rw [part_foldl_addTo hown hother ms rfl, part_foldl_addTo hown hother ms' rfl, h noun]
  have header : (ms.foldl Member.addTo t).SameHeader (ms'.foldl Member.addTo t) := by
    obtain ⟨h₁, h₂, h₃, h₄, h₅, h₆⟩ := sameHeader_foldl_addTo ms t
    obtain ⟨h₁', h₂', h₃', h₄', h₅', h₆'⟩ := sameHeader_foldl_addTo ms' t
    exact ⟨h₁.trans h₁'.symm, h₂.trans h₂'.symm, h₃.trans h₃'.symm, h₄.trans h₄'.symm,
      h₅.trans h₅'.symm, h₆.trans h₆'.symm⟩
  refine header.eq (part .field ?_ ?_) (part .index ?_ ?_) (part .event ?_ ?_)
  · rintro (f | i | e) ⟨⟩ t u ht
    exact congrArg (putBy (·.name == f.name) f) ht
  · rintro (f | i | e) hm t
    exacts [absurd rfl hm, rfl, rfl]
  · rintro (f | i | e) ⟨⟩ t u ht
    exact congrArg (putBy (·.name == i.name) i) ht
  · rintro (f | i | e) hm t
    exacts [rfl, absurd rfl hm, rfl]
  · rintro (f | i | e) ⟨⟩ t u ht
    exact congrArg (· ++ [e]) ht
  · rintro (f | i | e) hm t
    exacts [rfl, rfl, absurd rfl hm]

end Table

theorem Schema.nodup_ofTables (ts : List Table) :
    ((Schema.ofTables ts).tables.map Table.name).Nodup := by
  have fold (ts : List Table) (s : Schema) (hs : (s.tables.map Table.name).Nodup) :
      ((ts.foldl Schema.addTable s).tables.map Table.name).Nodup := by
    induction ts generalizing s with
    | nil => exact hs
    | cons t ts ih => exact ih (s.addTable t) (nodup_putBy hs rfl)
  exact fold ts {} .nil

/-! ## What statements are about -/

/-- What a definition contributes to: the tables of a name, or the members of a kind in a table. -/
def Definition.subject? : Definition → Option (Noun × Text)
  | table t => some (.table, t.name)
  | member owner m => some (m.noun, owner)
  | _ => none

namespace Statement

/-- What a statement contributes to, if it is read and contributes to a schema. -/
def subject? (s : Text) : Option (Noun × Text) :=
  (Definition.read s).toOption.bind Definition.subject?

/-- The statements that contribute to the same as each other. -/
def about (subject : Noun × Text) (ss : List Text) : List Text :=
  ss.filter (subject? · = some subject)

variable {s : Text} {ss : List Text}

theorem subject?_of_table? {t : Table} (h : table? s = some t) :
    subject? s = some (.table, t.name) := by
  rw [← Definition.bind_table?_read] at h
  obtain ⟨d, hd, ht⟩ := Option.bind_eq_some_iff.mp h
  rw [subject?, hd]
  cases d <;> cases ht
  rfl

theorem subject?_of_member? {m : Text × Member} (h : member? s = some m) :
    subject? s = some (m.2.noun, m.1) := by
  obtain ⟨d, hd, hm⟩ := Option.bind_eq_some_iff.mp h
  rw [subject?, hd]
  cases d <;> cases hm
  rfl

/-- The tables of a name come from the statements about it. -/
theorem filter_tablesIn (name : Text) : (Script.tablesIn ss).filter (·.name == name) =
    (about (.table, name) ss).filterMap table? := by
  rw [Script.tablesIn_eq, List.filter_filterMap, about, List.filterMap_filter]
  refine List.filterMap_congr fun s _ => ?_
  cases ht : table? s with
  | none => simp
  | some t =>
    rw [subject?_of_table? ht]
    by_cases hname : t.name = name <;> simp [hname, Option.filter]

/-- The members of a kind in a table come from the statements about it. -/
theorem filter_membersIn (noun : Noun) (table : Text) :
    ((Script.membersIn ss).filter fun m => m.2.noun = noun ∧ m.1 = table) =
      (about (noun, table) ss).filterMap member? := by
  rw [Script.membersIn_eq, List.filter_filterMap, about, List.filterMap_filter]
  refine List.filterMap_congr fun s _ => ?_
  cases hm : member? s with
  | none => simp
  | some m =>
    rw [subject?_of_member? hm]
    by_cases hnoun : m.2.noun = noun <;> by_cases howner : m.1 = table <;>
      simp [hnoun, howner, Option.filter]

end Statement

/-! ## Statements in another order -/

namespace Script

/-- Whether statements are the same in another order, which is kept where they contribute to the
same. -/
structure Rearranged (ss ss' : List Text) : Prop where
  perm : ss.Perm ss'
  order : ∀ subject, Statement.about subject ss = Statement.about subject ss'

instance (ss ss' : List Text) : Decidable (Rearranged ss ss') :=
  decidable_of_iff (ss.Perm ss' ∧ ∀ s ∈ ss, ∀ subject ∈ Statement.subject? s,
      Statement.about subject ss = Statement.about subject ss') <| by
    refine ⟨fun ⟨hperm, horder⟩ => ⟨hperm, fun subject => ?_⟩, fun h =>
      ⟨h.perm, fun s _ subject _ => h.order subject⟩⟩
    by_cases hs : ∃ s ∈ ss, subject ∈ Statement.subject? s
    · obtain ⟨s, hs, hsubject⟩ := hs
      exact horder s hs subject hsubject
    · have none : Statement.about subject ss = [] :=
        List.filter_eq_nil_iff.mpr fun s hmem he => hs ⟨s, hmem, by simpa using he⟩
      have perm := hperm.filter (Statement.subject? · = some subject)
      rw [← Statement.about, none] at perm
      rw [none]
      exact perm.nil_eq

variable {ss ss' : List Text}

theorem Rearranged.table?_ofTables (h : Rearranged ss ss') (name : Text) :
    (Schema.ofTables (tablesIn ss)).table? name = (Schema.ofTables (tablesIn ss')).table? name := by
  have last (ss : List Text) : (Schema.ofTables (tablesIn ss)).table? name =
      ((Statement.about (.table, name) ss).filterMap Statement.table?).getLast? := by
    rw [Schema.table?_ofTables, ← List.head?_filter, List.filter_reverse, List.head?_reverse,
      Statement.filter_tablesIn]
  rw [last, last, h.order]

theorem Rearranged.hasTableOf_eq (h : Rearranged ss ss') :
    (Schema.ofTables (tablesIn ss)).hasTableOf = (Schema.ofTables (tablesIn ss')).hasTableOf := by
  funext m
  rw [Schema.hasTableOf, Schema.hasTableOf, h.table?_ofTables]

/-- What statements make of a table are the last header under its name and the members of its
own. -/
theorem table?_schemaOf (ss : List Text) (name : Text) : (schemaOf ss).table? name =
    ((Schema.ofTables (tablesIn ss)).table? name).map
      ((((membersIn ss).filter (·.1 = name)).map Prod.snd).foldl Member.addTo) := by
  have names := Schema.nodup_ofTables (tablesIn ss)
  have added := Schema.foldl_addMember names
    ((membersIn ss).filter (Schema.ofTables (tablesIn ss)).hasTableOf)
  have keep (ms : List Member) (t : Table) : (ms.foldl Member.addTo t).name = t.name :=
    (Table.sameHeader_foldl_addTo ms t).name
  rw [schemaOf, added, Schema.table?, List.find?_map]
  simp only [Function.comp_def, keep]
  cases ht : (Schema.ofTables (tablesIn ss)).tables.find? (·.name == name) with
  | none =>
    rw [Schema.table?, ht]
    rfl
  | some t =>
    obtain rfl : t.name = name := (find?_key_eq_some ht).2
    have own : ((membersIn ss).filter (Schema.ofTables (tablesIn ss)).hasTableOf).filter
        (t.name == ·.1) = (membersIn ss).filter (·.1 = t.name) := by
      rw [List.filter_filter]
      refine List.filter_congr fun m _ => ?_
      by_cases hm : m.1 = t.name
      · have there : (Schema.ofTables (tablesIn ss)).hasTableOf m = true := by
          rw [Schema.hasTableOf, hm, Schema.table?, ht]
          rfl
        simp [hm, there]
      · simp [hm, Ne.symm hm]
    rw [Schema.table?, ht, Option.map_some, Option.map_some, own]

/-- The members of a table, kind by kind, do not change. -/
theorem Rearranged.table?_schemaOf (h : Rearranged ss ss') (name : Text) :
    (schemaOf ss).table? name = (schemaOf ss').table? name := by
  rw [Script.table?_schemaOf, Script.table?_schemaOf, h.table?_ofTables]
  congr 1
  funext t
  refine Table.foldl_addTo_congr (fun noun => ?_) t
  have own (ss : List Text) : (((membersIn ss).filter (·.1 = name)).map Prod.snd).filter
      (·.noun = noun) =
        ((Statement.about (noun, name) ss).filterMap Statement.member?).map Prod.snd := by
    rw [← Statement.filter_membersIn, List.filter_map, List.filter_filter]
    simp
  rw [own, own, h.order]

theorem Rearranged.faults_eq_nil_iff (h : Rearranged ss ss') :
    faults (ss.map Definition.read) = [] ↔ faults (ss'.map Definition.read) = [] := by
  have perm := (h.perm.map Definition.read).filterMap fault?
  rw [← faults, ← faults] at perm
  exact ⟨fun he => (he ▸ perm).nil_eq.symm, fun he => (he ▸ perm).eq_nil⟩

theorem Rearranged.orphansIn_eq_nil_iff (h : Rearranged ss ss') :
    orphansIn ss = [] ↔ orphansIn ss' = [] := by
  have perm : (orphansIn ss).Perm (orphansIn ss') := by
    rw [orphansIn, orphansIn, h.hasTableOf_eq, membersIn_eq, membersIn_eq]
    exact (h.perm.filterMap _).filter _
  exact ⟨fun he => (he ▸ perm).nil_eq.symm, fun he => (he ▸ perm).eq_nil⟩

/-- Statements are read strictly just if none is refused and each member has its table. -/
theorem strict_isOk_iff : (∃ s, strict ss = .ok s) ↔
    faults (ss.map Definition.read) = [] ∧ orphansIn ss = [] := by
  rw [strict_eq]
  cases faults (ss.map Definition.read) with
  | cons fault _ => simp
  | nil => cases orphansIn ss <;> simp

end Script

/-- Whether two schemas have the same tables, each once, under the same names. -/
structure Schema.SameTables (s s' : Schema) : Prop where
  perm : s.tables.Perm s'.tables
  table?_eq : ∀ name, s.table? name = s'.table? name

theorem Schema.sameTables_of_table? {s s' : Schema} (hs : s.NamedApart) (hs' : s'.NamedApart)
    (h : ∀ name, s.table? name = s'.table? name) : s.SameTables s' where
  perm := by
    have mem {s : Schema} (hs : s.NamedApart) (t : Table) :
        t ∈ s.tables ↔ s.table? t.name = some t :=
      ⟨find?_key_of_mem hs.names, List.mem_of_find?_eq_some⟩
    refine (List.perm_ext_iff_of_nodup hs.names.of_map hs'.names.of_map).mpr fun t => ?_
    rw [mem hs, mem hs', h]
  table?_eq := h

namespace Script

variable {ss ss' : List Text}

theorem Rearranged.sameTables (h : Rearranged ss ss') :
    (schemaOf ss).SameTables (schemaOf ss') :=
  Schema.sameTables_of_table? (built_schemaOf ss).namedApart (built_schemaOf ss').namedApart
    h.table?_schemaOf

/-- Two scripts of the same statements, in an order that is kept where they contribute to the same,
define the same tables. The strict reading accepts both or none. -/
theorem sameTables_read {a b : Text} (h : Rearranged (statements a) (statements b)) :
    (read a).schema.SameTables (read b).schema ∧
    ((∃ s, readStrict a = .ok s) ↔ ∃ s, readStrict b = .ok s) ∧
    ∀ s s', readStrict a = .ok s → readStrict b = .ok s' → s.SameTables s' := by
  refine ⟨?_, ?_, fun s s' hs hs' => ?_⟩
  · rw [read_eq, read_eq]
    exact h.sameTables
  · rw [readStrict_eq, readStrict_eq, strict_isOk_iff, strict_isOk_iff, h.faults_eq_nil_iff,
      h.orphansIn_eq_nil_iff]
  · rw [eq_schemaOf_of_strict hs, eq_schemaOf_of_strict hs']
    exact h.sameTables

/-- A table is defined twice with members around it, of which two replace each other. -/
def interleaved : Text :=
  "DEFINE FIELD title ON post TYPE int; DEFINE TABLE post SCHEMALESS; DEFINE TABLE user; " ++
    "DEFINE INDEX title ON post FIELDS title; DEFINE FIELD title ON post TYPE string; " ++
    "DEFINE FIELD name ON user; DEFINE TABLE post"

/-- The same definitions table by table. -/
def grouped : Text :=
  "DEFINE TABLE user; DEFINE FIELD name ON user; DEFINE TABLE post SCHEMALESS; DEFINE TABLE post; "
    ++ "DEFINE INDEX title ON post FIELDS title; DEFINE FIELD title ON post TYPE int; " ++
    "DEFINE FIELD title ON post TYPE string"

theorem sameTables_read_grouped : Rearranged (statements interleaved) (statements grouped) ∧
    (read interleaved).schema.SameTables (read grouped).schema ∧
    (∃ s, readStrict interleaved = .ok s) ∧ ∃ s, readStrict grouped = .ok s := by
  have rearranged : Rearranged (statements interleaved) (statements grouped) := by decide +kernel
  obtain ⟨same, strict, -⟩ := sameTables_read rearranged
  have read : ∃ s, readStrict interleaved = .ok s := ⟨(read interleaved).schema, by decide +kernel⟩
  exact ⟨rearranged, same, read, strict.mp read⟩

end Script

end SchemaDrift
