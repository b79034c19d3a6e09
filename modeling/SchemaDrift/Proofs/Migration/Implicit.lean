import SchemaDrift.Proofs.Migration.Elements
import SchemaDrift.Proofs.Migration.Stated

namespace SchemaDrift

/-!
# Fields that a relation declares by itself

The definition of a relation declares its fields `in` and `out`, so that a statement which defines
one of them has to overwrite. The script of an added table does so, and so does a statement for a
changed field. A field that is added to a table on both sides is written like any other.
-/

/-- Whether the table declares the field by itself. -/
def Table.DeclaresItself (t : Table) (f : Field) : Prop :=
  t.kind = .relation ∧ (f.name = "in" ∨ f.name = "out")

/-- Whether the definition of a field may replace an existing one. -/
def Statement.Overwrites (statement : Text) : Prop :=
  ("DEFINE FIELD OVERWRITE " : Text) <+: statement

theorem Statement.fieldMode_of_declaresItself {t : Table} {f : Field} (h : t.DeclaresItself f) :
    fieldMode t f = .overwrite := if_pos h

theorem Statement.prefix_writeField (table : Text) (f : Field) (mode : Mode) :
    ("DEFINE FIELD" ++ mode.word ++ " " ++ f.name : Text) <+: writeField table f mode := by
  unfold writeField
  simp only [List.append_assoc, List.prefix_append_right_inj, List.prefix_append]

/-- The mode of the definition of such a field can be read off its text. -/
theorem Statement.overwrites_writeField_iff {t : Table} {f : Field} (h : t.DeclaresItself f)
    (table : Text) (mode : Mode) : Overwrites (writeField table f mode) ↔ mode = .overwrite := by
  have head := prefix_writeField table f mode
  cases mode with
  | overwrite =>
    have word : ("DEFINE FIELD" ++ Mode.overwrite.word ++ " " : Text) =
        "DEFINE FIELD OVERWRITE " := by decide
    rw [word] at head
    exact iff_of_true ((List.prefix_append _ _).trans head) rfl
  | create =>
    have name : f.name ∈ [("in" : Text), "out"] := by simpa using h.2
    have other : ∀ name ∈ [("in" : Text), "out"],
        ¬("DEFINE FIELD" ++ Mode.create.word ++ " " ++ name : Text) <+: "DEFINE FIELD OVERWRITE " ∧
          ("DEFINE FIELD" ++ Mode.create.word ++ " " ++ name : Text).length ≤
            ("DEFINE FIELD OVERWRITE " : Text).length := by decide
    obtain ⟨differs, short⟩ := other _ name
    exact iff_of_false (fun h => differs (List.prefix_of_prefix_length_le head h short)) nofun

theorem Table.DeclaresItself.isWildcard_eq_false {t : Table} {f : Field} (h : t.DeclaresItself f) :
    f.isWildcard = false := by
  rcases h.2 with hname | hname
  · rw [Field.isWildcard, hname]
    decide
  · rw [Field.isWildcard, hname]
    decide

namespace Change

variable {source target : Schema} {s t : Table} {f : Field} {c : Change} {x : Text}

/-- Whether a text is the definition of a field in what is rendered for a change: the statement of
the change, or a line of the script of an added table. The first line of a script defines the table,
and the fields follow it. -/
inductive Defines (source target : Schema) (c : Change) (t : Table) (f : Field) (x : Text) : Prop
  | statement (hkind : c.kind.definesField = true) (hfound : c.field? source = some (t, f))
      (hx : c.statement? source target = some x)
  | line (hkind : c.kind = .tableAdded) (hfound : source.table? c.table = some t)
      (hscript : c.statement? source target = some (Text.join "\n" (Statement.definitions t)))
      {place : Nat} (hfield : t.properFields[place]? = some f)
      (hx : (Statement.definitions t)[place + 1]? = some x)

theorem Defines.eq_writeField (h : c.Defines source target t f x) :
    x = Statement.writeField t.name f
    (if c.kind = .tableAdded then Statement.fieldMode t f else c.kind.mode) := by
  cases h with
  | statement hkind hfound hx =>
    have proper : c.kind ≠ .tableAdded := by
      intro hadded
      rw [hadded] at hkind
      cases hkind
    rw [statement?_of_definesField hkind hfound] at hx
    rw [if_neg proper]
    exact (Option.some.inj hx).symm
  | @line hkind _ _ place hfield hx =>
    obtain ⟨hlt, -⟩ := List.getElem?_eq_some_iff.mp hfield
    rw [Statement.definitions, List.getElem?_cons_succ,
      List.getElem?_append_left (by rwa [List.length_map]), List.getElem?_map, hfield] at hx
    rw [if_pos hkind]
    exact (Option.some.inj hx).symm

/-- The definition of such a field overwrites unless the field is all that is added. -/
theorem Defines.overwrites_iff (h : c.Defines source target t f x) (hf : t.DeclaresItself f) :
    Statement.Overwrites x ↔ c.kind ≠ .fieldAdded := by
  rw [h.eq_writeField, Statement.overwrites_writeField_iff hf]
  cases h with
  | statement hkind _ _ =>
    cases hc : c.kind with
    | fieldAdded => exact iff_of_false nofun fun hne => hne rfl
    | fieldTypeChanged | fieldDefaultChanged | fieldAssertionChanged => exact iff_of_true rfl nofun
    | _ =>
      rw [hc] at hkind
      cases hkind
  | line hkind _ _ _ _ =>
    rw [if_pos hkind, hkind]
    exact iff_of_true (Statement.fieldMode_of_declaresItself hf) nofun

/-- Every field of an added table that is no element constraint has a line in its script. -/
theorem exists_defines_of_tableAdded (hs : source.DistinctPaths) (hmem : s ∈ source.tables)
    (hnone : target.table? s.name = none) (hf : f ∈ s.fields) (hproper : f.isWildcard = false) :
    ∃ c ∈ source.compare target .push, c.kind = .tableAdded ∧
      ∃ x, c.Defines source target s f x := by
  have found : source.table? s.name = some s := find?_key_of_mem hs.names hmem
  have proper : f ∈ s.properFields := List.mem_filter.mpr ⟨hf, by simp [hproper]⟩
  obtain ⟨place, hfield⟩ := List.mem_iff_getElem?.mp proper
  obtain ⟨hlt, -⟩ := List.getElem?_eq_some_iff.mp hfield
  refine ⟨_, mem_compare.mpr (.inl ⟨s, hmem, hnone, rfl⟩), rfl,
    Statement.writeField s.name f (Statement.fieldMode s f), .line rfl found ?_ hfield ?_⟩
  · change (source.table? s.name).map Statement.script = _
    rw [found]
    rfl
  · rw [Statement.definitions, List.getElem?_cons_succ,
      List.getElem?_append_left (by rwa [List.length_map]), List.getElem?_map, hfield]
    rfl

/-- A field of a common table that the target does not have is defined by a change that adds it. -/
theorem exists_defines_of_fieldAdded (hs : source.DistinctPaths) (ht : target.DistinctPaths)
    (hmem : s ∈ source.tables) (htable : target.table? s.name = some t) (hf : f ∈ s.fields)
    (hproper : f.isWildcard = false) (hnone : ∀ g ∈ t.fields, g.path ≠ f.path) :
    ∃ c ∈ source.compare target .push, c.kind = .fieldAdded ∧
      ∃ x, c.Defines source target s f x := by
  have last : target.lastTable? s.name = some t :=
    (find?_reverse ht.names s.name).trans htable
  have missing : t.lastFieldAt? f.path = none := by
    apply List.find?_eq_none.mpr
    intro g hg
    simpa using hnone g (List.mem_reverse.mp hg)
  have added : { kind := .fieldAdded, table := s.name, field := f.name, newValue := f.type } ∈
      ofTables s t := by
    refine mem_ofTables.mpr (.inr (.inl ⟨f, hf, ?_⟩))
    have implied : s.implies f = false := by simp [Table.implies, hproper]
    rw [ofSourceField, missing, implied]
    exact List.mem_singleton_self _
  have found : source.table? s.name = some s := find?_key_of_mem hs.names hmem
  have own : s.fieldAt? f.name = some f := find?_key_of_mem (hs.paths s hmem) hf
  refine ⟨_, mem_compare.mpr (.inr (.inr ⟨s, hmem, t, last, _, added, rfl⟩)), rfl, _,
    .statement rfl (field?_eq found own rfl)
      (statement?_of_definesField rfl (field?_eq found own rfl))⟩

/-- A field is added to a common table only if the target has no field at its path. -/
theorem exists_table_of_fieldAdded (hs : source.DistinctPaths) (ht : target.DistinctPaths)
    (hc : c ∈ source.compare target .push) (hkind : c.kind = .fieldAdded)
    (h : c.Defines source target s f x) : s ∈ source.tables ∧ f ∈ s.fields ∧
      ∃ t, target.table? s.name = some t ∧ ∀ g ∈ t.fields, g.path ≠ f.path := by
  have hfound : c.field? source = some (s, f) := by
    cases h with
    | statement _ hfound _ => exact hfound
    | line hadded _ _ _ _ =>
      rw [hkind] at hadded
      cases hadded
  rcases mem_compare.mp hc with ⟨u, -, -, rfl⟩ | ⟨u, -, -, rfl⟩ | ⟨u, hu, t, hlast, d, hd, rfl⟩
  · cases hkind
  · cases hkind
  change d.kind = .fieldAdded at hkind
  change d.field? source = some (s, f) at hfound
  obtain ⟨e, he, hde⟩ : ∃ e ∈ u.fields, d ∈ ofSourceField u t e := by
    rcases mem_ofTables.mp hd with hd | he | ⟨e, -, hd⟩ | ⟨i, -, hd⟩ | ⟨i, -, hd⟩
    · rw [(mem_ofKind hd).1] at hkind
      cases hkind
    · exact he
    · rw [(mem_ofTargetField hd).1] at hkind
      cases hkind
    · rcases (mem_ofSourceIndex hd).1 with hindex | hindex
      · rw [hindex] at hkind
        cases hkind
      · rw [hindex] at hkind
        cases hkind
    · rw [(mem_ofTargetIndex hd).1] at hkind
      cases hkind
  obtain ⟨-, htable, hfield, -⟩ := mem_ofSourceField hde
  have found : source.table? d.table = some u := by
    rw [htable]
    exact find?_key_of_mem hs.names hu
  have own : u.fieldAt? e.name = some e := find?_key_of_mem (hs.paths u hu) he
  obtain ⟨rfl, rfl⟩ :=
    Prod.mk.inj (Option.some.inj ((field?_eq found own hfield).symm.trans hfound))
  refine ⟨hu, he, t, (find?_reverse ht.names u.name).symm.trans hlast, fun g hg => ?_⟩
  have missing := List.find?_eq_none.mp (lastFieldAt?_of_fieldAdded hde hkind) g
    (List.mem_reverse.mpr hg)
  simpa using missing

/-- Where a migration overwrites the fields that relations declare by themselves. A statement that
defines such a field does not overwrite just if its change adds the field to a table on both sides.
So all of them overwrite just if the target has these fields in each table that is a relation in the
source. In the script of an added relation they are defined, and overwritten. -/
theorem overwrites_declared_iff (hs : source.DistinctPaths) (ht : target.DistinctPaths) :
    (∀ c ∈ source.compare target .push, ∀ s f x, c.Defines source target s f x →
      s.DeclaresItself f → (Statement.Overwrites x ↔ c.kind ≠ .fieldAdded)) ∧
    ((∀ c ∈ source.compare target .push, ∀ s f x, c.Defines source target s f x →
      s.DeclaresItself f → Statement.Overwrites x) ↔
        ∀ s ∈ source.tables, ∀ t, target.table? s.name = some t →
          ∀ f ∈ s.fields, s.DeclaresItself f → ∃ g ∈ t.fields, g.path = f.path) ∧
    ∀ s ∈ source.tables, target.table? s.name = none → ∀ f ∈ s.fields, s.DeclaresItself f →
      ∃ c ∈ source.compare target .push, ∃ x, c.Defines source target s f x ∧
        Statement.Overwrites x := by
  refine ⟨fun c _ s f x h hf => h.overwrites_iff hf, ⟨?_, ?_⟩, ?_⟩
  · intro h s hmem t htable f hf hself
    by_contra hnone
    push Not at hnone
    obtain ⟨c, hc, hkind, x, hx⟩ :=
      exists_defines_of_fieldAdded hs ht hmem htable hf hself.isWildcard_eq_false hnone
    exact (hx.overwrites_iff hself).mp (h c hc s f x hx hself) hkind
  · intro h c hc s f x hx hself
    refine (hx.overwrites_iff hself).mpr fun hkind => ?_
    obtain ⟨hmem, hf, t, htable, hnone⟩ := exists_table_of_fieldAdded hs ht hc hkind hx
    obtain ⟨g, hg, hpath⟩ := h s hmem t htable f hf hself
    exact hnone g hg hpath
  · intro s hmem hnone f hf hself
    obtain ⟨c, hc, hkind, x, hx⟩ :=
      exists_defines_of_tableAdded hs hmem hnone hf hself.isWildcard_eq_false
    refine ⟨c, hc, x, hx, (hx.overwrites_iff hself).mpr ?_⟩
    rw [hkind]
    nofun

/-- Likes, as edges from users. -/
def edges : Schema := ⟨[
  { name := "likes", kind := .relation, fields := [{ name := "in", type := "record<user>" }] }]⟩

/-- Likes, as a table of records. -/
def records : Schema := ⟨[{ name := "likes" }]⟩

theorem distinctPaths_edges : edges.DistinctPaths := by decide

theorem distinctPaths_records : records.DistinctPaths := by decide

/-- The table becomes a relation and gains one of the fields that a relation declares. -/
theorem exists_defines_edges : ∃ c ∈ edges.compare records .push, c.kind = .fieldAdded ∧
    ∃ s f x, c.Defines edges records s f x ∧ s.DeclaresItself f := by
  obtain ⟨c, hc, hkind, x, hx⟩ := exists_defines_of_fieldAdded
    (s := { name := "likes", kind := .relation, fields :=
      [{ name := "in", type := "record<user>" }] })
    (t := { name := "likes" }) (f := { name := "in", type := "record<user>" })
    distinctPaths_edges distinctPaths_records (List.mem_singleton_self _) rfl
    (List.mem_singleton_self _) (by decide) nofun
  exact ⟨c, hc, hkind, _, _, x, hx, rfl, .inl rfl⟩

/-- Where a relation is new, its field overwrites; where the table becomes one, it does not. -/
theorem overwrites_declared_iff_edges :
    (∃ c ∈ edges.compare records .push, ∃ s f x, c.Defines edges records s f x ∧
      s.DeclaresItself f ∧ ¬Statement.Overwrites x) ∧
    ∃ c ∈ edges.compare ⟨[]⟩ .push, ∃ s f x, c.Defines edges ⟨[]⟩ s f x ∧
      s.DeclaresItself f ∧ Statement.Overwrites x := by
  constructor
  · obtain ⟨c, hc, hkind, s, f, x, hx, hself⟩ := exists_defines_edges
    have overwrites := (overwrites_declared_iff distinctPaths_edges distinctPaths_records).1
      c hc s f x hx hself
    exact ⟨c, hc, s, f, x, hx, hself, fun h => overwrites.mp h hkind⟩
  · have empty : (⟨[]⟩ : Schema).DistinctPaths := by decide
    obtain ⟨-, -, added⟩ := overwrites_declared_iff distinctPaths_edges empty
    obtain ⟨c, hc, x, hx, overwrites⟩ := added _ (List.mem_singleton_self _) rfl
      { name := "in", type := "record<user>" } (List.mem_singleton_self _) ⟨rfl, .inl rfl⟩
    exact ⟨c, hc, _, _, x, hx, ⟨rfl, .inl rfl⟩, overwrites⟩

/-- A migration that turns a table into a relation defines its first field anew without overwriting
it. -/
theorem not_overwrites_declared :
    ¬∀ source target : Schema, source.DistinctPaths → target.DistinctPaths →
      ∀ c ∈ source.compare target .push, ∀ s f x, c.Defines source target s f x →
        s.DeclaresItself f → Statement.Overwrites x := by
  intro h
  obtain ⟨c, hc, hkind, s, f, x, hx, hself⟩ := exists_defines_edges
  have overwrites := h edges records distinctPaths_edges distinctPaths_records c hc s f x hx hself
  exact (hx.overwrites_iff hself).mp overwrites hkind

end Change

end SchemaDrift
