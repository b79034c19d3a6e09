import Mathlib.Data.List.Nodup
import Mathlib.Data.List.Perm.Basic
import SchemaDrift.Proofs.Reading.Introspection

namespace SchemaDrift

/-!
# Failures that stay apart

What cannot be read of a database costs nothing but itself. Without the definitions that are not
read the same schema is read, and each of them has one warning of its own.
-/

/-! ## Lists -/

section Lists

variable {α β : Type} {l : List α} {p : α → Bool} {f g h : α → List β}

theorem flatMap_filter_eq :
    (l.filter p).flatMap g = l.flatMap fun a => if p a then g a else [] := by
  induction l with
  | nil => rfl
  | cons a l ih => cases hp : p a <;> simp [hp, ih]

/-- What a list gives rise to comes from the elements that are kept and from what each one adds. -/
theorem flatMap_perm_filter (hf : ∀ a ∈ l, (f a).Perm ((if p a then g a else []) ++ h a)) :
    (l.flatMap f).Perm ((l.filter p).flatMap g ++ l.flatMap h) := by
  rw [flatMap_filter_eq]
  exact (List.Perm.flatMap_left l hf).trans (List.flatMap_append_perm l _ h).symm

/-- Lists without repetitions that have nothing in common have no repetitions together. -/
theorem nodup_flatMap_of_inj (hl : l.Nodup) (hf : ∀ a ∈ l, (f a).Nodup)
    (hinj : ∀ a ∈ l, ∀ b ∈ l, ∀ x ∈ f a, x ∈ f b → a = b) : (l.flatMap f).Nodup := by
  refine List.nodup_flatMap.mpr ⟨hf, hl.imp_of_mem fun ha hb hne => ?_⟩
  exact List.disjoint_left.mpr fun x hx hx' => hne (hinj _ ha _ hb x hx hx')

end Lists

namespace Dict

variable {α β : Type} {d : Dict α} {k : Text}

theorem get?_map (f : α → β) (d : Dict α) (k : Text) : (d.map f).get? k = (d.get? k).map f := by
  rw [get?, get?, map, List.find?_map, Option.map_map, Option.map_map]
  rfl

theorem mem_keys_iff_mem_entries : k ∈ d.keys ↔ ∃ v, (k, v) ∈ d.entries := by
  rw [keys, List.mem_map]
  constructor
  · rintro ⟨e, he, rfl⟩
    exact ⟨e.2, he⟩
  · rintro ⟨v, hv⟩
    exact ⟨_, hv, rfl⟩

theorem nodup_entries (d : Dict α) : d.entries.Nodup := d.nodup_keys.of_map

theorem eq_of_mem_entries {v v' : α} (h : (k, v) ∈ d.entries) (h' : (k, v') ∈ d.entries) :
    v = v' :=
  congrArg Prod.snd (List.inj_on_of_nodup_map d.nodup_keys h h' rfl)

/-- A key is filtered out with its value. -/
theorem mem_keys_filter_iff {p : Text → α → Bool} {v : α} (h : (k, v) ∈ d.entries) :
    k ∈ (d.filter p).keys ↔ p k v = true := by
  rw [mem_keys_iff_mem_entries]
  constructor
  · rintro ⟨v', hv'⟩
    obtain ⟨hmem, hp⟩ := List.mem_filter.mp hv'
    rwa [eq_of_mem_entries h hmem]
  · intro hp
    exact ⟨v, List.mem_filter.mpr ⟨h, hp⟩⟩

end Dict

/-! ## Members -/

/-- Where a definition is listed in the answers of a database. -/
inductive Place where
  | table (key : Text)
  | member (table : Text) (noun : Noun) (name : Text)
  deriving DecidableEq, Repr

/-- The table of a member. -/
def Place.owner? : Place → Option Text
  | table _ => none
  | member owner _ _ => some owner

/-- The nouns of the definitions that belong to a table. -/
def Noun.ofMembers : List Noun := [.field, .index, .event]

/-- Reads a member with this noun. -/
def Member.read : Noun → Text → Except Fault Member
  | .table => fun s => .error (.unexpected .table s)
  | .field => readField
  | .index => readIndex
  | .event => readEvent

theorem Member.kind_of_mem_warnings {m : Member} {table : Text} {w : Warning}
    (hw : w ∈ m.warnings table) : w.kind = .unsupportedFeature := by
  cases m with
  | field f =>
    rw [warnings] at hw
    split at hw
    · cases hw
    · rw [List.mem_singleton.mp hw]
      rfl
  | index i =>
    rw [warnings] at hw
    split at hw
    · rw [List.mem_singleton.mp hw]
      rfl
    · split at hw
      · rw [List.mem_singleton.mp hw]
        rfl
      · cases hw
  | event e =>
    rw [List.mem_singleton.mp hw]
    rfl

namespace Reading

variable {noun : Noun} {key table : Text} {statements : Dict Text}

/-- The statements of one kind that are read. -/
def readable (noun : Noun) (statements : Dict Text) : Dict Text :=
  statements.filter fun _ s => (Member.read noun s).toOption.isSome

/-- The members of one kind that are not read, each with what is said about it. -/
def unread (noun : Noun) (key table : Text) (statements : Dict Text) : List (Place × Warning) :=
  statements.entries.flatMap fun e =>
    match Member.read noun e.2 with
    | .ok _ => []
    | .error fault =>
      [(.member table noun e.1, .parseFailure (noun.label ++ " " ++ key ++ "." ++ e.1) fault)]

theorem members_readable : members (Member.read noun) (readable noun statements) =
    members (Member.read noun) statements := by
  rw [members, members, readable, Dict.filter, List.filterMap_filter]
  refine List.filterMap_congr fun e _ => ?_
  cases (Member.read noun e.2).toOption <;> rfl

theorem memberWarnings_perm :
    (memberWarnings noun (Member.read noun) key table statements).Perm
      (memberWarnings noun (Member.read noun) key table (readable noun statements) ++
        (unread noun key table statements).map Prod.snd) := by
  rw [unread, List.map_flatMap]
  refine flatMap_perm_filter fun e _ => ?_
  cases h : Member.read noun e.2 with
  | ok m => simp [h, Except.toOption]
  | error fault => simp [h, Except.toOption]

/-- The statements that are read have no failures. -/
theorem kind_of_mem_memberWarnings {w : Warning}
    (hw : w ∈ memberWarnings noun (Member.read noun) key table (readable noun statements)) :
    w.kind = .unsupportedFeature := by
  obtain ⟨e, he, hw⟩ := List.mem_flatMap.mp hw
  have hread : (Member.read noun e.2).toOption.isSome = true := (List.mem_filter.mp he).2
  cases h : Member.read noun e.2 with
  | ok m =>
    simp only [h] at hw
    exact Member.kind_of_mem_warnings hw
  | error fault =>
    rw [h] at hread
    cases hread

theorem mem_unread {x : Place × Warning} : x ∈ unread noun key table statements ↔
    ∃ name s fault, (name, s) ∈ statements.entries ∧ Member.read noun s = .error fault ∧
      x = (.member table noun name,
        .parseFailure (noun.label ++ " " ++ key ++ "." ++ name) fault) := by
  rw [unread, List.mem_flatMap]
  constructor
  · rintro ⟨⟨name, s⟩, he, hx⟩
    cases h : Member.read noun s with
    | ok m => simp [h] at hx
    | error fault =>
      simp only [h, List.mem_singleton] at hx
      exact ⟨name, s, fault, he, h, hx⟩
  · rintro ⟨name, s, fault, he, h, rfl⟩
    exact ⟨_, he, by simp [h]⟩

theorem nodup_unread : ((unread noun key table statements).map Prod.fst).Nodup := by
  rw [unread, List.map_flatMap]
  refine nodup_flatMap_of_inj statements.nodup_entries (fun e _ => ?_)
    fun e he e' he' x hx hx' => ?_
  · cases Member.read noun e.2 <;> simp
  · refine List.inj_on_of_nodup_map statements.nodup_keys he he' ?_
    cases h : Member.read noun e.2 with
    | ok m => simp [h] at hx
    | error fault =>
      cases h' : Member.read noun e'.2 with
      | ok m => simp [h'] at hx'
      | error fault' => simp_all

end Reading

namespace TableInfo

variable {noun : Noun} {key table : Text} {info : TableInfo}

/-- The statements of a table that have this noun. -/
def listed (info : TableInfo) : Noun → Dict Text
  | .table => ∅
  | .field => info.fields
  | .index => info.indexes
  | .event => info.events

/-- The statements of a table that are read. -/
def reduced (info : TableInfo) : TableInfo where
  fields := Reading.readable .field info.fields
  indexes := Reading.readable .index info.indexes
  events := Reading.readable .event info.events

/-- The members of a table that are not read, each with what is said about it. -/
def unread (key table : Text) (info : TableInfo) : List (Place × Warning) :=
  Noun.ofMembers.flatMap fun noun => Reading.unread noun key table (info.listed noun)

theorem listed_reduced : info.reduced.listed noun = Reading.readable noun (info.listed noun) := by
  cases noun <;> rfl

theorem members_reduced (info : TableInfo) : info.reduced.members = info.members := by
  have kind (noun : Noun) :
      Reading.members (Member.read noun) (Reading.readable noun (info.listed noun)) =
        Reading.members (Member.read noun) (info.listed noun) := Reading.members_readable
  exact congrArg₂ _ (congrArg₂ _ (kind .field) (kind .index)) (kind .event)

theorem warnings_eq : info.warnings key table = Noun.ofMembers.flatMap fun noun =>
    Reading.memberWarnings noun (Member.read noun) key table (info.listed noun) := by
  simp only [warnings, Noun.ofMembers, List.flatMap_cons, List.flatMap_nil, List.append_nil,
    List.append_assoc]
  rfl

theorem warnings_perm : (info.warnings key table).Perm
    (info.reduced.warnings key table ++ (info.unread key table).map Prod.snd) := by
  rw [warnings_eq, warnings_eq, unread, List.map_flatMap]
  refine (List.Perm.flatMap_left _ fun noun _ => ?_).trans (List.flatMap_append_perm _ _ _).symm
  rw [listed_reduced]
  exact Reading.memberWarnings_perm

theorem kind_of_mem_warnings {w : Warning} (hw : w ∈ info.reduced.warnings key table) :
    w.kind = .unsupportedFeature := by
  rw [warnings_eq] at hw
  obtain ⟨noun, -, hw⟩ := List.mem_flatMap.mp hw
  rw [listed_reduced] at hw
  exact Reading.kind_of_mem_memberWarnings hw

theorem mem_unread {x : Place × Warning} : x ∈ info.unread key table ↔
    ∃ noun name s fault, (name, s) ∈ (info.listed noun).entries ∧
      Member.read noun s = .error fault ∧
      x = (.member table noun name,
        .parseFailure (noun.label ++ " " ++ key ++ "." ++ name) fault) := by
  simp only [unread, List.mem_flatMap, Reading.mem_unread]
  constructor
  · rintro ⟨noun, -, name, s, fault, he, h, rfl⟩
    exact ⟨noun, name, s, fault, he, h, rfl⟩
  · rintro ⟨noun, name, s, fault, he, h, rfl⟩
    refine ⟨noun, ?_, name, s, fault, he, h, rfl⟩
    cases noun with
    | table => cases he
    | field | index | event => decide

theorem nodup_unread : ((info.unread key table).map Prod.fst).Nodup := by
  rw [unread, List.map_flatMap]
  refine nodup_flatMap_of_inj (by decide) (fun noun _ => Reading.nodup_unread)
    fun noun _ noun' _ p hp hp' => ?_
  obtain ⟨x, hx, rfl⟩ := List.mem_map.mp hp
  obtain ⟨y, hy, hxy⟩ := List.mem_map.mp hp'
  obtain ⟨_, _, _, -, -, rfl⟩ := Reading.mem_unread.mp hx
  obtain ⟨_, _, _, -, -, rfl⟩ := Reading.mem_unread.mp hy
  cases hxy
  rfl

end TableInfo

namespace Snapshot

/-- Whether a definition is listed in the answers of a database. -/
def Lists (s : Snapshot) : Place → Prop
  | .table key => key ∈ s.database.tables.keys
  | .member table noun name =>
    ∃ info, s.tables.get? table = some info ∧ name ∈ (info.listed noun).keys

/-- Whether no two definitions of tables that are read define the same table. -/
def NamesApart (s : Snapshot) : Prop :=
  ∀ e ∈ s.database.tables.entries, ∀ t ∈ (Statement.readTable e.2).toOption,
    ∀ e' ∈ s.database.tables.entries, ∀ t' ∈ (Statement.readTable e'.2).toOption,
      t.name = t'.name → e = e'

instance (s : Snapshot) : Decidable s.NamesApart :=
  inferInstanceAs (Decidable (∀ e ∈ s.database.tables.entries,
    ∀ t ∈ (Statement.readTable e.2).toOption, ∀ e' ∈ s.database.tables.entries,
      ∀ t' ∈ (Statement.readTable e'.2).toOption, t.name = t'.name → e = e'))

end Snapshot

/-! ## Tables -/

namespace Client

variable {client : Client} {e : Text × Text} {fails : Call → Bool}

/-- The answers of a database without the tables that are skipped and the members that are not
read. -/
def reduced (client : Client) : Snapshot where
  database := { client.snapshot.database with
    tables := client.snapshot.database.tables.filter fun key s =>
      (client.tableFor? (key, s)).isSome }
  tables := client.snapshot.tables.map TableInfo.reduced

/-- What is left out because of an entry of the database, each with what is said about it: its
table, or else the members that are not read. -/
def unread (client : Client) (e : Text × Text) : List (Place × Warning) :=
  match Statement.readTable e.2 with
  | .error fault => [(.table e.1, .parseFailure ("table " ++ e.1) fault)]
  | .ok t =>
    match client.table t.name with
    | .error cause => [(.table e.1, .unansweredTable e.1 cause)]
    | .ok info => info.unread e.1 t.name

/-- Whether a definition is left out, and is not about a table that is not read itself. -/
structure LeavesOut (client : Client) (p : Place) : Prop where
  listed : client.snapshot.Lists p
  unlisted : ¬client.reduced.Lists p
  owner : ∀ table ∈ p.owner?, client.DefinesTable table

/-- What is said about a definition that is left out. -/
inductive Explains (client : Client) : Place → Warning → Prop where
  | unread {key s : Text} {fault : Fault} (listed : (key, s) ∈ client.tableEntries)
      (refused : Statement.readTable s = .error fault) :
      Explains client (.table key) (.parseFailure ("table " ++ key) fault)
  | unanswered {key s cause : Text} {t : Table} (listed : (key, s) ∈ client.tableEntries)
      (read : Statement.readTable s = .ok t) (failed : client.table t.name = .error cause) :
      Explains client (.table key) (.unansweredTable key cause)
  | member {key s name s' : Text} {t : Table} {info : TableInfo} {noun : Noun} {fault : Fault}
      (listed : (key, s) ∈ client.tableEntries) (read : Statement.readTable s = .ok t)
      (answered : client.table t.name = .ok info) (stated : (name, s') ∈ (info.listed noun).entries)
      (refused : Member.read noun s' = .error fault) :
      Explains client (.member t.name noun name)
        (.parseFailure (noun.label ++ " " ++ key ++ "." ++ name) fault)

theorem tableFor?_isSome_iff : (client.tableFor? e).isSome = true ↔ ¬client.Skips e := by
  constructor
  · intro h
    obtain ⟨t, ht⟩ := Option.isSome_iff_exists.mp h
    exact (exists_of_tableFor? ht).1
  · intro h
    obtain ⟨t, info, -, -, hread⟩ := exists_of_not_skips h
    rw [hread]
    rfl

theorem table_eq_ok_iff {name : Text} {info : TableInfo} : client.table name = .ok info ↔
    client.fails (.table name) = false ∧ client.snapshot.tables.get? name = some info := by
  rw [table, answer]
  cases client.fails (.table name) with
  | true => simp
  | false => cases client.snapshot.tables.get? name <;> simp

/-- A skipped table is left out with one warning. -/
theorem exists_of_skips (h : client.Skips e) :
    ∃ w, client.entryWarnings e = [w] ∧ client.unread e = [(.table e.1, w)] := by
  rcases h with ⟨fault, hfault⟩ | ⟨t, cause, ht, hcause⟩
  · refine ⟨_, by rw [entryWarnings, hfault], by rw [unread, hfault]⟩
  · refine ⟨.unansweredTable e.1 cause, ?_, ?_⟩
    · rw [entryWarnings, ht]
      dsimp only
      rw [hcause]
    · rw [unread, ht]
      dsimp only
      rw [hcause]

variable {t : Table} {info : TableInfo}

theorem entryWarnings_eq (ht : Statement.readTable e.2 = .ok t)
    (hinfo : client.table t.name = .ok info) :
    client.entryWarnings e = info.warnings e.1 t.name := by
  rw [entryWarnings, ht]
  dsimp only
  rw [hinfo]

theorem unread_eq (ht : Statement.readTable e.2 = .ok t) (hinfo : client.table t.name = .ok info) :
    client.unread e = info.unread e.1 t.name := by
  rw [unread, ht]
  dsimp only
  rw [hinfo]

/-! ### The reduced answers -/

section Reduced

variable (hfails : ∀ call, fails call = true → client.fails call = true)
include hfails

theorem table_reduced {name : Text} (h : client.table name = .ok info) :
    Client.table ⟨client.reduced, fails⟩ name = .ok info.reduced := by
  obtain ⟨hcall, hinfo⟩ := table_eq_ok_iff.mp h
  refine table_eq_ok_iff.mpr ⟨Bool.eq_false_iff.mpr fun hf => ?_, ?_⟩
  · rw [hfails _ hf] at hcall
    cases hcall
  · rw [reduced, Dict.get?_map, hinfo, Option.map_some]

theorem tableFor?_reduced (h : ¬client.Skips e) :
    tableFor? ⟨client.reduced, fails⟩ e = client.tableFor? e := by
  obtain ⟨t, info, ht, hinfo, hread⟩ := exists_of_not_skips h
  rw [hread, tableFor?, ht, Except.toOption, Option.bind_some, table_reduced hfails hinfo,
    ← info.members_reduced]
  rfl

theorem schema_reading_reduced :
    (reading ⟨client.reduced, fails⟩).schema = client.reading.schema := by
  rw [reading, reading, tableEntries, reduced, Dict.filter, List.filterMap_filter]
  refine congrArg Schema.ofTables (List.filterMap_congr fun e _ => ?_)
  by_cases h : client.Skips e
  · have none : client.tableFor? e = none := tableFor?_of_skips h
    rw [none]
    rfl
  · rw [if_pos (tableFor?_isSome_iff.mpr h)]
    exact tableFor?_reduced hfails h

theorem entryWarnings_perm : (client.entryWarnings e).Perm
    ((if (client.tableFor? e).isSome then entryWarnings ⟨client.reduced, fails⟩ e else []) ++
      (client.unread e).map Prod.snd) := by
  by_cases h : client.Skips e
  · obtain ⟨w, hwarnings, hunread⟩ := exists_of_skips h
    rw [hwarnings, hunread, tableFor?_of_skips h]
    exact .refl _
  · obtain ⟨t, info, ht, hinfo, -⟩ := exists_of_not_skips h
    rw [if_pos (tableFor?_isSome_iff.mpr h), entryWarnings_eq ht hinfo, unread_eq ht hinfo,
      entryWarnings_eq ht (table_reduced hfails hinfo)]
    exact TableInfo.warnings_perm

theorem warnings_reading_perm : client.reading.warnings.Perm
    ((reading ⟨client.reduced, fails⟩).warnings ++
      (client.tableEntries.flatMap client.unread).map Prod.snd) := by
  rw [reading, reading, List.map_flatMap, List.append_assoc]
  exact (flatMap_perm_filter fun e _ => entryWarnings_perm hfails).append_left _

theorem kind_of_mem_reading_reduced {w : Warning}
    (hw : w ∈ (reading ⟨client.reduced, fails⟩).warnings) : w.kind = .unsupportedFeature := by
  rcases List.mem_append.mp hw with hw | hw
  · obtain ⟨_, -, hw⟩ := List.mem_flatMap.mp hw
    obtain ⟨_, -, rfl⟩ := List.mem_map.mp hw
    rfl
  · obtain ⟨e, he, hw⟩ := List.mem_flatMap.mp hw
    have kept : ¬client.Skips e := tableFor?_isSome_iff.mp (List.mem_filter.mp he).2
    obtain ⟨t, info, ht, hinfo, -⟩ := exists_of_not_skips kept
    rw [entryWarnings_eq ht (table_reduced hfails hinfo)] at hw
    exact TableInfo.kind_of_mem_warnings hw

end Reduced

/-! ### What is left out -/

theorem explains_of_mem_unread (he : e ∈ client.tableEntries) {x : Place × Warning}
    (hx : x ∈ client.unread e) : client.Explains x.1 x.2 := by
  unfold unread at hx
  cases ht : Statement.readTable e.2 with
  | error fault =>
    simp only [ht, List.mem_singleton] at hx
    rw [hx]
    exact .unread he ht
  | ok t =>
    simp only [ht] at hx
    cases hinfo : client.table t.name with
    | error cause =>
      simp only [hinfo, List.mem_singleton] at hx
      rw [hx]
      exact .unanswered he ht hinfo
    | ok info =>
      simp only [hinfo] at hx
      obtain ⟨noun, name, s, fault, hs, hfault, rfl⟩ := TableInfo.mem_unread.mp hx
      exact .member he ht hinfo hs hfault

theorem leavesOut_of_explains {p : Place} {w : Warning} (h : client.Explains p w) :
    client.LeavesOut p := by
  have listed {key s : Text} (he : (key, s) ∈ client.tableEntries) :
      client.snapshot.Lists (.table key) := Dict.mem_keys_iff_mem_entries.mpr ⟨s, he⟩
  have unlisted {key s : Text} (he : (key, s) ∈ client.tableEntries) (h : client.Skips (key, s)) :
      ¬client.reduced.Lists (.table key) := by
    intro hkey
    exact tableFor?_isSome_iff.mp ((Dict.mem_keys_filter_iff he).mp hkey) h
  cases h with
  | unread he hfault =>
    exact ⟨listed he, unlisted he (.inl ⟨_, hfault⟩), fun _ h => by cases h⟩
  | unanswered he ht hcause =>
    exact ⟨listed he, unlisted he (.inr ⟨_, _, ht, hcause⟩), fun _ h => by cases h⟩
  | @member key s name s' t info noun fault he ht hinfo hs hfault =>
    have answered := (table_eq_ok_iff.mp hinfo).2
    refine ⟨⟨info, answered, Dict.mem_keys_iff_mem_entries.mpr ⟨s', hs⟩⟩, ?unlisted, ?owner⟩
    case unlisted =>
      rintro ⟨info', hinfo', hname⟩
      rw [reduced, Dict.get?_map, answered, Option.map_some] at hinfo'
      rw [← Option.some.inj hinfo', TableInfo.listed_reduced, Reading.readable,
        Dict.mem_keys_filter_iff hs, hfault] at hname
      cases hname
    case owner =>
      intro table htable
      obtain rfl := Option.some.inj htable
      refine ⟨_, he, ?_, t, ht, rfl⟩
      rintro (⟨fault', h⟩ | ⟨t', cause, ht', hcause⟩)
      · rw [ht] at h
        cases h
      · rw [ht] at ht'
        obtain rfl := Except.ok.inj ht'
        rw [hinfo] at hcause
        cases hcause

theorem exists_of_leavesOut {p : Place} (h : client.LeavesOut p) :
    ∃ e ∈ client.tableEntries, ∃ w, (p, w) ∈ client.unread e := by
  obtain ⟨listed, unlisted, owner⟩ := h
  cases p with
  | table key =>
    obtain ⟨s, he⟩ := Dict.mem_keys_iff_mem_entries.mp listed
    have skips : client.Skips (key, s) := by
      by_contra kept
      exact unlisted ((Dict.mem_keys_filter_iff he).mpr (tableFor?_isSome_iff.mpr kept))
    obtain ⟨w, -, hunread⟩ := exists_of_skips skips
    exact ⟨_, he, w, hunread ▸ List.mem_singleton_self _⟩
  | member table noun name =>
    obtain ⟨e, he, kept, t, ht, rfl⟩ := owner table rfl
    obtain ⟨t', info, ht', hinfo, -⟩ := exists_of_not_skips kept
    obtain rfl := Except.ok.inj (ht.symm.trans ht')
    have answered := (table_eq_ok_iff.mp hinfo).2
    obtain ⟨info', hinfo', hname⟩ := listed
    obtain rfl := Option.some.inj (answered.symm.trans hinfo')
    obtain ⟨s, hs⟩ := Dict.mem_keys_iff_mem_entries.mp hname
    cases hread : Member.read noun s with
    | error fault =>
      refine ⟨e, he, .parseFailure (noun.label ++ " " ++ e.1 ++ "." ++ name) fault, ?_⟩
      rw [unread_eq ht hinfo]
      exact TableInfo.mem_unread.mpr ⟨noun, name, s, fault, hs, hread, rfl⟩
    | ok m =>
      -- A member that is read is listed among the reduced answers.
      refine absurd ⟨info.reduced, ?_, ?_⟩ unlisted
      · rw [reduced, Dict.get?_map, answered, Option.map_some]
      · rw [TableInfo.listed_reduced, Reading.readable, Dict.mem_keys_filter_iff hs, hread]
        rfl

/-- What is left out because of an entry is its table or a member of it. -/
theorem place_of_mem_unread {x : Place × Warning} (hx : x ∈ client.unread e) :
    x.1 = .table e.1 ∨
      ∃ t, Statement.readTable e.2 = .ok t ∧ x.1.owner? = some t.name := by
  by_cases h : client.Skips e
  · obtain ⟨w, -, hunread⟩ := exists_of_skips h
    rw [hunread] at hx
    rw [List.mem_singleton.mp hx]
    exact .inl rfl
  · obtain ⟨t, info, ht, hinfo, -⟩ := exists_of_not_skips h
    rw [unread_eq ht hinfo] at hx
    obtain ⟨noun, name, s, fault, -, -, rfl⟩ := TableInfo.mem_unread.mp hx
    exact .inr ⟨t, ht, rfl⟩

/-- The definitions that are left out because of an entry are not left out because of another. -/
theorem nodup_unread (hnames : client.snapshot.NamesApart) :
    ((client.tableEntries.flatMap client.unread).map Prod.fst).Nodup := by
  rw [List.map_flatMap]
  refine nodup_flatMap_of_inj (Dict.nodup_entries _) (fun e _ => ?single)
    fun e he e' he' p hp hp' => ?apart
  case single =>
    by_cases h : client.Skips e
    · obtain ⟨w, -, hunread⟩ := exists_of_skips h
      simp [hunread]
    · obtain ⟨t, info, ht, hinfo, -⟩ := exists_of_not_skips h
      rw [unread_eq ht hinfo]
      exact TableInfo.nodup_unread
  case apart =>
    obtain ⟨x, hx, rfl⟩ := List.mem_map.mp hp
    obtain ⟨y, hy, hxy⟩ := List.mem_map.mp hp'
    rcases place_of_mem_unread hx with hx | ⟨t, ht, hx⟩
    · rcases place_of_mem_unread hy with hy | ⟨t', -, hy⟩
      · rw [← hxy, hy] at hx
        exact List.inj_on_of_nodup_map (Dict.nodup_keys _) he he' (Place.table.inj hx).symm
      · rw [hxy, hx] at hy
        cases hy
    · rcases place_of_mem_unread hy with hy | ⟨t', ht', hy⟩
      · rw [← hxy, hy] at hx
        cases hx
      · rw [hxy, hx] at hy
        refine hnames e he t ?_ e' he' t' ?_ (Option.some.inj hy)
        · rw [ht]
          rfl
        · rw [ht']
          rfl

/-- Only a database that does not list its definitions cannot be read. Without the tables that are
skipped and the members that are not read, the same schema is read and nothing fails, and the
warnings are fewer by one for each definition that is left out. The members of a table that is
skipped have none. -/
theorem introspect_reduced (client : Client) :
    ((∃ error, client.introspect = .error error) ↔ client.fails .database = true) ∧
    (client.snapshot.NamesApart → client.fails .database = false →
      ∀ fails : Call → Bool, (∀ call, fails call = true → client.fails call = true) →
      ∃ r r', client.introspect = .ok r ∧ introspect ⟨client.reduced, fails⟩ = .ok r' ∧
        r'.schema = r.schema ∧ (∀ w ∈ r'.warnings, w.kind = .unsupportedFeature) ∧
        ∃ left : List (Place × Warning), (left.map Prod.fst).Nodup ∧
          (∀ p, p ∈ left.map Prod.fst ↔ client.LeavesOut p) ∧
          (∀ x ∈ left, client.Explains x.1 x.2) ∧
          r.warnings.Perm (r'.warnings ++ left.map Prod.snd)) := by
  constructor
  · rw [introspect_eq]
    cases client.fails .database <;> simp
  · intro hnames hdatabase fails hfails
    have answered : fails .database = false :=
      Bool.eq_false_iff.mpr fun h => by simp [hfails _ h] at hdatabase
    have explained : ∀ x ∈ client.tableEntries.flatMap client.unread, client.Explains x.1 x.2 := by
      intro x hx
      obtain ⟨e, he, hx⟩ := List.mem_flatMap.mp hx
      exact explains_of_mem_unread he hx
    refine ⟨client.reading, reading ⟨client.reduced, fails⟩, ?_, ?_, schema_reading_reduced hfails,
      fun w => kind_of_mem_reading_reduced hfails, client.tableEntries.flatMap client.unread,
      nodup_unread hnames, fun p => ?_, explained, warnings_reading_perm hfails⟩
    · rw [introspect_eq, hdatabase]
      rfl
    · rw [introspect_eq]
      exact if_neg (Bool.eq_false_iff.mp answered)
    · constructor
      · intro hp
        obtain ⟨x, hx, rfl⟩ := List.mem_map.mp hp
        exact leavesOut_of_explains (explained x hx)
      · intro hp
        obtain ⟨e, he, w, hw⟩ := exists_of_leavesOut hp
        exact List.mem_map.mpr ⟨_, List.mem_flatMap.mpr ⟨e, he, hw⟩, rfl⟩

/-- A database with a table that is not read, one that it does not answer for, and a field that is
not read. -/
def faulty : Client where
  snapshot.database.tables := .ofList [("draft", "DEFINE TABLE ?"), ("lost", "DEFINE TABLE lost"),
    ("post", "DEFINE TABLE post")]
  snapshot.tables := .ofList [
    ("lost", { fields := .ofList [("text", "DEFINE FIELD text")] }),
    ("post", {
      fields := .ofList [("text", "DEFINE FIELD text"),
        ("title", "DEFINE FIELD title ON post TYPE string")] })]
  fails call := call = .table "lost"

theorem introspect_reduced_faulty :
    faulty.snapshot.NamesApart ∧ faulty.fails .database = false ∧
      (∀ call, faulty.fails call = true → faulty.fails call = true) ∧
      ∃ r r', faulty.introspect = .ok r ∧ introspect ⟨faulty.reduced, faulty.fails⟩ = .ok r' ∧
        r'.schema = r.schema ∧ ∃ left : List (Place × Warning),
          r.warnings.Perm (r'.warnings ++ left.map Prod.snd) := by
  have apart : faulty.snapshot.NamesApart := by decide +kernel
  obtain ⟨-, isolated⟩ := introspect_reduced faulty
  obtain ⟨r, r', hr, hr', hschema, -, left, -, -, -, hwarnings⟩ :=
    isolated apart rfl faulty.fails fun _ => id
  exact ⟨apart, rfl, fun _ => id, r, r', hr, hr', hschema, left, hwarnings⟩

end Client

end SchemaDrift
