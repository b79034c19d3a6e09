import Mathlib.Logic.Relation
import SchemaDrift.Proofs.Plan.Agreement

namespace SchemaDrift

/-!
# Element constraints that a migration passes over

An element constraint of the target that the source does not have is given up without a change if
the target itself implies it, whatever the source makes of the container. A container around it then
tells what becomes of it: the source has this container with the same type, or its type changes, or
it is removed.
-/

namespace Schema

/-- Whether the tables have names of their own, and the fields of each table paths of their own. -/
structure DistinctPaths (s : Schema) : Prop where
  names : (s.tables.map Table.name).Nodup
  paths : ∀ t ∈ s.tables, (t.fields.map Field.path).Nodup

instance (s : Schema) : Decidable s.DistinctPaths :=
  decidable_of_iff
    ((s.tables.map Table.name).Nodup ∧ ∀ t ∈ s.tables, (t.fields.map Field.path).Nodup)
    ⟨fun h => ⟨h.1, h.2⟩, fun h => ⟨h.1, h.2⟩⟩

end Schema

/-! ## Containers -/

namespace Table

/-- Whether a field stands at the path around another one, and the type of its elements is the type
of this other one. -/
structure ImpliedBy (t : Table) (f container : Field) : Prop where
  mem : container ∈ t.fields
  path : Path.parent? f.name = some container.path
  type : TypeExpr.element? container.type = some (TypeExpr.normal f.type)

variable {s t : Table} {f g h : Field}

theorem Repeats.exists_impliedBy (hf : t.Repeats f) : ∃ g, t.ImpliedBy f g := by
  obtain ⟨g, hg, hpath, htype⟩ := hf.type
  exact ⟨g, hg, hpath, htype⟩

theorem ImpliedBy.length_lt (hf : t.ImpliedBy f g) : g.path.length < f.path.length :=
  Path.length_lt_of_beforeLastDot hf.path

theorem ImpliedBy.of_normal (hf : t.ImpliedBy f g) (hm : h ∈ s.fields) (hpath : h.path = g.path)
    (htype : TypeExpr.normal h.type = TypeExpr.normal g.type) : s.ImpliedBy f h where
  mem := hm
  path := by rw [hf.path, hpath]
  type := by rw [← hf.type, TypeExpr.element?, TypeExpr.element?, htype]

/-- Whether a field that another table does not have is implied by a container in its own table. -/
def PassedOver (s t : Table) (f container : Field) : Prop :=
  f.path ∉ s.fields.map Field.path ∧ t.ImpliedBy f container

end Table

/-! ## The changes of a field -/

namespace Change

variable {s t : Table} {f g : Field}

/-- The removal of a field that only the target has. -/
def removal (table : Text) (f : Field) : Change :=
  { kind := .fieldRemoved, table, field := f.name, oldValue := f.type }

/-- The change of the type of a field that both sides have. -/
def retyping (table : Text) (source target : Field) : Change :=
  { kind := .fieldTypeChanged, table, field := source.name,
    oldValue := target.type, newValue := source.type }

/-- Nothing else than the removal is said of a field that only the target has, and nothing at all if
the target implies it. -/
theorem ofTables_of_not_mem (ht : (t.fields.map Field.path).Nodup) (hf : f ∈ t.fields)
    (hpath : f.path ∉ s.fields.map Field.path) :
    ((∃ c ∈ ofTables s t, c.field = some f.name) ↔ ¬t.Repeats f) ∧
      (¬t.Repeats f → removal s.name f ∈ ofTables s t) := by
  have missing : ∀ g : Field, g.name = f.name → s.lastFieldAt? g.path = none := by
    intro g hname
    have same : g.path = f.path := congrArg Path.normal hname
    rw [same, Table.lastFieldAt?, find?_key_eq_none, List.map_reverse, List.mem_reverse]
    exact hpath
  have removed (himplies : ¬t.Repeats f) : removal s.name f ∈ ofTables s t := by
    refine mem_ofTables.mpr (.inr (.inr (.inl ⟨f, hf, ?_⟩)))
    rw [← Table.implies_iff ht, Bool.not_eq_true] at himplies
    rw [ofTargetField, missing f rfl, himplies]
    exact List.mem_singleton_self _
  refine ⟨⟨?reported, fun h => ⟨_, removed h, rfl⟩⟩, removed⟩
  rintro ⟨c, hc, hfield⟩ hrepeats
  rcases mem_ofTables.mp hc with hc | ⟨g, hg, hc⟩ | ⟨g, hg, hc⟩ | ⟨i, -, hc⟩ | ⟨i, -, hc⟩
  · rw [(mem_ofKind hc).2.2.1] at hfield
    cases hfield
  · -- A field of the source has another name, since its path is another one.
    rw [(mem_ofSourceField hc).2.2.1] at hfield
    have same : g.path = f.path := congrArg Path.normal (Option.some.inj hfield)
    exact hpath (same ▸ List.mem_map_of_mem hg)
  · rw [(mem_ofTargetField hc).2.2.1] at hfield
    have same : g.path = f.path := congrArg Path.normal (Option.some.inj hfield)
    rw [List.inj_on_of_nodup_map ht hg hf same, ofTargetField, (Table.implies_iff ht).mpr hrepeats,
      Bool.or_true] at hc
    cases hc
  · rw [(mem_ofSourceIndex hc).2.2.1] at hfield
    cases hfield
  · rw [(mem_ofTargetIndex hc).2.2.1] at hfield
    cases hfield

theorem retyping_mem_ofTables (ht : (t.fields.map Field.path).Nodup) (hf : f ∈ s.fields)
    (hg : g ∈ t.fields) (hpath : f.path = g.path)
    (htype : TypeExpr.normal f.type ≠ TypeExpr.normal g.type) :
    retyping s.name f g ∈ ofTables s t := by
  have found : t.lastFieldAt? f.path = some g := by
    rw [hpath]
    exact (find?_reverse ht g.path).trans (find?_key_of_mem ht hg)
  refine mem_ofTables.mpr (.inr (.inl ⟨f, hf, ?_⟩))
  rw [ofSourceField, found]
  refine List.mem_append_left _ (List.mem_append_left _ ?_)
  rw [if_pos htype]
  exact List.mem_singleton_self _

end Change

/-! ## What becomes of an element constraint -/

namespace Change

/-- What the source makes of a container of the target: it has it too, or its type changes, or it is
removed. -/
inductive Outcome (s t : Table) (changes : List Change) (container : Field) : Prop where
  | kept {h : Field} (mem : h ∈ s.fields) (path : h.path = container.path)
      (type : TypeExpr.normal h.type = TypeExpr.normal container.type)
  | retyped {h : Field} (mem : h ∈ s.fields) (path : h.path = container.path)
      (change : describe .push (retyping s.name h container) ∈ changes)
  | removed (path : container.path ∉ s.fields.map Field.path)
      (change : describe .push (removal s.name container) ∈ changes)

variable {s t : Table} {f : Field}

theorem Outcome.mono {cs ds : List Change} (h : Outcome s t cs f) (hsub : ∀ c ∈ cs, c ∈ ds) :
    Outcome s t ds f := by
  cases h with
  | kept mem path type => exact .kept mem path type
  | retyped mem path change => exact .retyped mem path (hsub _ change)
  | removed path change => exact .removed path (hsub _ change)

/-- Outwards from an implied element constraint, the first container that the source has or that is
reported tells what becomes of it. -/
theorem exists_outcome (ht : (t.fields.map Field.path).Nodup) (hrepeats : t.Repeats f)
    (hpath : f.path ∉ s.fields.map Field.path) : ∃ g, Relation.TransGen (s.PassedOver t) f g ∧
      Outcome s t ((ofTables s t).map (describe .push)) g := by
  induction hn : f.path.length using Nat.strong_induction_on generalizing f with
  | _ n ih =>
    obtain ⟨g, hg⟩ := hrepeats.exists_impliedBy
    have step : s.PassedOver t f g := ⟨hpath, hg⟩
    by_cases hmem : g.path ∈ s.fields.map Field.path
    · obtain ⟨h, hh, hsame⟩ := List.mem_map.mp hmem
      refine ⟨g, .single step, ?_⟩
      by_cases htype : TypeExpr.normal h.type = TypeExpr.normal g.type
      · exact .kept hh hsame htype
      · exact .retyped hh hsame
          (List.mem_map_of_mem (retyping_mem_ofTables ht hh hg.mem hsame htype))
    · by_cases hagain : t.Repeats g
      · -- The container is an implied element constraint itself, so one around it decides.
        obtain ⟨k, hk, houtcome⟩ := ih _ (hn ▸ hg.length_lt) hagain hmem rfl
        exact ⟨k, .head step hk, houtcome⟩
      · exact ⟨g, .single step, .removed hmem
          (List.mem_map_of_mem ((ofTables_of_not_mem ht hg.mem hmem).2 hagain))⟩

end Change

namespace Schema

variable {source target : Schema} {s t : Table} {f : Field}

/-- The changes that name a table of both sides are the changes between its two versions. -/
theorem mem_compare_of_tables (hsource : source.DistinctPaths) (htarget : target.DistinctPaths)
    (hs : s ∈ source.tables) (ht : t ∈ target.tables) (hname : s.name = t.name) {c : Change} :
    c ∈ source.compare target .push ∧ c.table = s.name ↔
      c ∈ (Change.ofTables s t).map (Change.describe .push) := by
  have found : target.table? s.name = some t := hname ▸ find?_key_of_mem htarget.names ht
  have last : target.lastTable? s.name = some t := (find?_reverse htarget.names s.name).trans found
  rw [Change.mem_compare]
  constructor
  · rintro ⟨⟨s', -, hnone, rfl⟩ | ⟨t', -, hnone, rfl⟩ | ⟨s', hs', t', ht', d, hd, rfl⟩, htable⟩
    · rw [show s'.name = s.name from htable, found] at hnone
      cases hnone
    · have there : source.table? s.name = some s := find?_key_of_mem hsource.names hs
      rw [show t'.name = s.name from htable, there] at hnone
      cases hnone
    · have table : d.table = s'.name := Change.table_of_mem_ofTables hd
      have same : s' = s :=
        List.inj_on_of_nodup_map hsource.names hs' hs (table.symm.trans htable)
      rw [same] at ht' hd
      rw [Option.some.inj (last.symm.trans ht')]
      exact List.mem_map_of_mem hd
  · intro hc
    obtain ⟨d, hd, rfl⟩ := List.mem_map.mp hc
    have table : d.table = s.name := Change.table_of_mem_ofTables hd
    exact ⟨.inr (.inr ⟨s, hs, t, last, d, hd, rfl⟩), table⟩

/-- A field that only the target has is reported unless its container in the target implies it. -/
theorem exists_change_iff_not_repeats (hsource : source.DistinctPaths)
    (htarget : target.DistinctPaths) (hs : s ∈ source.tables) (ht : t ∈ target.tables)
    (hname : s.name = t.name) (hf : f ∈ t.fields) (hpath : f.path ∉ s.fields.map Field.path) :
    (∃ c ∈ source.compare target .push, c.table = s.name ∧ c.field = some f.name) ↔
      ¬t.Repeats f := by
  rw [← (Change.ofTables_of_not_mem (htarget.paths t ht) hf hpath).1]
  constructor
  · rintro ⟨c, hc, htable, hfield⟩
    obtain ⟨d, hd, rfl⟩ := List.mem_map.mp
      ((mem_compare_of_tables hsource htarget hs ht hname).mp ⟨hc, htable⟩)
    exact ⟨d, hd, hfield⟩
  · rintro ⟨d, hd, hfield⟩
    obtain ⟨hc, htable⟩ :=
      (mem_compare_of_tables hsource htarget hs ht hname).mpr (List.mem_map_of_mem hd)
    exact ⟨_, hc, htable, hfield⟩

/-- A field that only the target has is passed over if its container in the target implies it, and
is removed otherwise. If the source keeps this container with its type, then the source implies the
field as well. In any case, the first container outwards that the source has or that is reported is
kept with its type, or its type changes, or it is removed. -/
theorem reported_iff_not_repeats (hsource : source.DistinctPaths) (htarget : target.DistinctPaths)
    (hs : s ∈ source.tables) (ht : t ∈ target.tables) (hname : s.name = t.name) (hf : f ∈ t.fields)
    (hpath : f.path ∉ s.fields.map Field.path) :
    ((∃ c ∈ source.compare target .push, c.table = s.name ∧ c.field = some f.name) ↔
      ¬t.Repeats f) ∧
    (¬t.Repeats f →
      Change.describe .push (Change.removal s.name f) ∈ source.compare target .push) ∧
    (∀ g h, t.ImpliedBy f g → h ∈ s.fields → h.path = g.path →
      TypeExpr.normal h.type = TypeExpr.normal g.type → s.ImpliedBy f h) ∧
    (t.Repeats f → ∃ g, Relation.TransGen (s.PassedOver t) f g ∧
      Change.Outcome s t (source.compare target .push) g) := by
  have paths := htarget.paths t ht
  have among (c : Change) (hc : c ∈ (Change.ofTables s t).map (Change.describe .push)) :
      c ∈ source.compare target .push :=
    ((mem_compare_of_tables hsource htarget hs ht hname).mpr hc).1
  refine ⟨exists_change_iff_not_repeats hsource htarget hs ht hname hf hpath, fun h => ?removed,
    fun g h hg => hg.of_normal, fun h => ?outcome⟩
  case removed =>
    exact among _ (List.mem_map_of_mem ((Change.ofTables_of_not_mem paths hf hpath).2 h))
  case outcome =>
    obtain ⟨g, hg, houtcome⟩ := Change.exists_outcome paths h hpath
    exact ⟨g, hg, houtcome.mono among⟩

/-- The tags of a post that the database has declared one by one. -/
def tag : Field := { name := "tags.*", type := "string" }

/-- The post as the database has it. -/
def declared : Table := { Plan.tagged with fields := Plan.tagged.fields ++ [tag] }

/-- The post whose tags are numbers. -/
def numbered : Table := { name := "post", fields := [{ name := "tags", type := "array<int>" }] }

/-- The post that has no tags any more. -/
def bare : Table := { name := "post" }

theorem repeats_tag : declared.Repeats tag where
  wildcard := by decide
  default := rfl
  value := rfl
  assertion := rfl
  type := ⟨_, List.mem_cons_self, by decide, Plan.element?_tags⟩

theorem reported_iff_not_repeats_numbered :
    (Schema.DistinctPaths ⟨[numbered]⟩ ∧ Schema.DistinctPaths ⟨[declared]⟩) ∧
      numbered.name = declared.name ∧ tag ∈ declared.fields ∧
      tag.path ∉ numbered.fields.map Field.path ∧ declared.Repeats tag ∧
      ∃ g, Relation.TransGen (numbered.PassedOver declared) tag g ∧
        Change.Outcome numbered declared (Schema.compare ⟨[numbered]⟩ ⟨[declared]⟩ .push) g := by
  have distinct : Schema.DistinctPaths ⟨[numbered]⟩ ∧ Schema.DistinctPaths ⟨[declared]⟩ := by
    decide
  have there : tag ∈ declared.fields := by decide
  have alone : tag.path ∉ numbered.fields.map Field.path := by decide
  obtain ⟨-, -, -, outcome⟩ := reported_iff_not_repeats distinct.1 distinct.2
    (List.mem_singleton_self _) (List.mem_singleton_self _) rfl there alone
  exact ⟨distinct, rfl, there, alone, repeats_tag, outcome repeats_tag⟩

/-- An element constraint can be passed over though the source has no container that implies it. -/
theorem not_impliedBy_of_unreported :
    ¬∀ (source target : Schema) (s t : Table) (f : Field), source.DistinctPaths →
      target.DistinctPaths → s ∈ source.tables → t ∈ target.tables → s.name = t.name →
      f ∈ t.fields → f.path ∉ s.fields.map Field.path →
      (¬∃ c ∈ source.compare target .push, c.table = s.name ∧ c.field = some f.name) →
      ∃ h, s.ImpliedBy f h := by
  intro h
  have distinct : Schema.DistinctPaths ⟨[bare]⟩ ∧ Schema.DistinctPaths ⟨[declared]⟩ := by decide
  have there : tag ∈ declared.fields := by decide
  have alone : tag.path ∉ bare.fields.map Field.path := by decide
  have reported := exists_change_iff_not_repeats distinct.1 distinct.2
    (List.mem_singleton_self _) (List.mem_singleton_self _) rfl there alone
  obtain ⟨container, hcontainer⟩ := h _ _ bare declared tag distinct.1 distinct.2
    (List.mem_singleton_self _) (List.mem_singleton_self _) rfl there alone
      (reported.not_left.mpr repeats_tag)
  cases hcontainer.mem

end Schema

end SchemaDrift
