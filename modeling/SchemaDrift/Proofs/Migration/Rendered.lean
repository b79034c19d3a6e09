import SchemaDrift.Migration.Render
import SchemaDrift.Proofs.Change.About
import SchemaDrift.Proofs.Migration.Instruction

namespace SchemaDrift

/-!
# What a migration says

The statements of a migration are read as instructions that put what the source needs in place, with
all that the source says about it, and remove what the target has on its own.
-/

namespace Table

/-- Whether the table consists of what a migration can handle, under names of its own. -/
structure Plain (t : Table) : Prop where
  paths : (t.fields.map Field.path).Nodup
  indexNames : (t.indexes.map Index.name).Nodup
  fields : ∀ f ∈ t.fields, f.isWildcard = false
  indexes : ∀ i ∈ t.indexes, i.isDetectionOnly = false

instance (t : Table) : Decidable t.Plain :=
  decidable_of_iff
    ((t.fields.map Field.path).Nodup ∧ (t.indexes.map Index.name).Nodup ∧
      (∀ f ∈ t.fields, f.isWildcard = false) ∧ ∀ i ∈ t.indexes, i.isDetectionOnly = false)
    ⟨fun ⟨h₁, h₂, h₃, h₄⟩ => ⟨h₁, h₂, h₃, h₄⟩, fun ⟨h₁, h₂, h₃, h₄⟩ => ⟨h₁, h₂, h₃, h₄⟩⟩

theorem Plain.properFields_eq {t : Table} (h : t.Plain) : t.properFields = t.fields := by
  apply List.filter_eq_self.mpr
  intro f hf
  rw [h.fields f hf]
  rfl

theorem Plain.properIndexes_eq {t : Table} (h : t.Plain) : t.properIndexes = t.indexes := by
  apply List.filter_eq_self.mpr
  intro i hi
  rw [h.indexes i hi]
  rfl

theorem Plain.fieldAt?_eq {t : Table} (h : t.Plain) {f : Field} (hf : f ∈ t.fields) :
    t.fieldAt? f.name = some f := find?_key_of_mem h.paths hf

theorem Plain.index?_eq {t : Table} (h : t.Plain) {i : Index} (hi : i ∈ t.indexes) :
    t.index? i.name = some i := find?_key_of_mem h.indexNames hi

/-- Whether the names in the table can be written down. -/
structure Named (t : Table) : Prop where
  name : IsName t.name
  fields : ∀ f ∈ t.fields, IsPath f.name
  indexes : ∀ i ∈ t.indexes, IsName i.name

end Table

namespace Schema

structure Plain (s : Schema) : Prop where
  names : (s.tables.map Table.name).Nodup
  tables : ∀ t ∈ s.tables, t.Plain

theorem Plain.table?_eq {s : Schema} (h : s.Plain) {t : Table} (ht : t ∈ s.tables) :
    s.table? t.name = some t := find?_key_of_mem h.names ht

theorem Plain.lastTable?_eq {s : Schema} (h : s.Plain) (name : Text) :
    s.lastTable? name = s.table? name := find?_reverse h.names name

end Schema

namespace Instruction

/-! ## The instructions of a migration -/

/-- The instructions for a table that both sides have. -/
def ofTables (source target : Table) : List Instruction :=
  (Change.ofKind source target).map (fun _ => defineTable source.header) ++
    source.fields.flatMap (fun f =>
      (Change.ofSourceField source target f).map fun _ => defineField source.name f) ++
    target.fields.flatMap (fun f =>
      (Change.ofTargetField source target f).map fun _ => removeField source.name f.name) ++
    source.indexes.flatMap (fun i =>
      (Change.ofSourceIndex source target i).map fun _ => defineIndex source.name i) ++
    target.indexes.flatMap fun i =>
      (Change.ofTargetIndex source i).map fun _ => removeIndex source.name i.name

/-- The instructions for a schema. -/
def ofSchemas (source target : Schema) : List Instruction :=
  (source.tables.filter fun t => (target.table? t.name).isNone).flatMap scriptOf ++
    (target.tables.filter fun t => (source.table? t.name).isNone).map (removeTable ·.name) ++
    source.tables.flatMap fun t => ((target.lastTable? t.name).map (ofTables t)).getD []

/-! ## Changes and their instructions -/

/-- Whether the statements of some changes are read as these instructions. -/
def Renders (source target : Schema) (changes : List Change) (cs : List Instruction) : Prop :=
  ((Change.statements changes source target).flatMap Script.statements).mapM read? = some cs

variable {source target : Schema}

theorem Renders.nil : Renders source target [] [] := rfl

theorem Renders.append {as bs : List Change} {cs ds : List Instruction}
    (h₁ : Renders source target as cs) (h₂ : Renders source target bs ds) :
    Renders source target (as ++ bs) (cs ++ ds) := by
  unfold Renders at h₁ h₂ ⊢
  rw [Change.statements, List.filterMap_append, List.flatMap_append, List.mapM_append]
  rw [Change.statements] at h₁ h₂
  rw [h₁, h₂]
  rfl

theorem Renders.flatMap {α : Type} {l : List α} {f : α → List Change} {g : α → List Instruction}
    (h : ∀ a ∈ l, Renders source target (f a) (g a)) :
    Renders source target (l.flatMap f) (l.flatMap g) := by
  induction l with
  | nil => exact .nil
  | cons a l ih =>
    apply Renders.append (h a List.mem_cons_self)
    exact ih fun b hb => h b (List.mem_cons_of_mem a hb)

theorem Renders.singleton {c : Change} {text : Text} {cs : List Instruction}
    (htext : c.statement? source target = some text)
    (h : (Script.statements text).mapM read? = some cs) : Renders source target [c] cs := by
  unfold Renders
  rw [Change.statements, List.filterMap_cons, htext, List.filterMap_nil, List.flatMap_singleton, h]

theorem Renders.replicate {changes : List Change} {c : Instruction}
    (h : ∀ change ∈ changes, ∃ text, change.statement? source target = some text ∧ Gives text c) :
    Renders source target changes (changes.map fun _ => c) := by
  induction changes with
  | nil => exact .nil
  | cons change changes ih =>
    obtain ⟨text, htext, hgives⟩ := h change List.mem_cons_self
    apply Renders.append (Renders.singleton htext (mapM_read?_of_gives hgives))
    exact ih fun d hd => h d (List.mem_cons_of_mem change hd)

theorem Renders.describe {changes : List Change} {cs : List Instruction}
    (h : Renders source target changes cs) (direction : Change.Direction) :
    Renders source target (changes.map (Change.describe direction)) cs := by
  unfold Renders at h ⊢
  rw [Change.statements, List.filterMap_map]
  exact h

/-! ## The changes of a table -/

section Tables

variable {s t : Table} (hs : source.Plain) (hw : source.Writable) (hmem : s ∈ source.tables)

include hs hw hmem

theorem renders_ofKind :
    Renders source target (Change.ofKind s t)
      ((Change.ofKind s t).map fun _ => defineTable s.header) := by
  apply Renders.replicate
  intro c hc
  obtain ⟨hkind, htable, -, -⟩ := Change.mem_ofKind hc
  refine ⟨Statement.writeTable s .overwrite, ?_, gives_writeTable (hw.tables s hmem).header _⟩
  rw [Change.statement?, hkind, htable]
  change (source.table? s.name).map _ = _
  rw [hs.table?_eq hmem]
  rfl

theorem renders_ofSourceField {f : Field} (hf : f ∈ s.fields) :
    Renders source target (Change.ofSourceField s t f)
      ((Change.ofSourceField s t f).map fun _ => defineField s.name f) := by
  have plain := hs.tables s hmem
  have writable : f.Writable := by
    apply (hw.tables s hmem).fields f
    rwa [plain.properFields_eq]
  apply Renders.replicate
  intro c hc
  obtain ⟨hkind, htable, hfield, -⟩ := Change.mem_ofSourceField hc
  have found : c.field? source = some (s, f) := by
    rw [Change.field?, htable, hs.table?_eq hmem, hfield]
    simp only [Option.bind_eq_bind, Option.bind_some, plain.fieldAt?_eq hf]
    rfl
  have written : ∃ mode,
      c.statement? source target = some (Statement.writeField s.name f mode) := by
    unfold Change.statement?
    rw [found]
    revert hkind
    cases c.kind with
    | fieldAdded => exact fun _ => ⟨.create, rfl⟩
    | fieldTypeChanged => exact fun _ => ⟨.overwrite, rfl⟩
    | fieldDefaultChanged => exact fun _ => ⟨.overwrite, rfl⟩
    | fieldAssertionChanged => exact fun _ => ⟨.overwrite, rfl⟩
    | _ => exact fun h => Bool.noConfusion h
  obtain ⟨mode, hmode⟩ := written
  exact ⟨_, hmode, gives_writeField writable (hw.tables s hmem).header.isName mode⟩

theorem renders_ofSourceIndex {i : Index} (hi : i ∈ s.indexes) :
    Renders source target (Change.ofSourceIndex s t i)
      ((Change.ofSourceIndex s t i).map fun _ => defineIndex s.name i) := by
  have plain := hs.tables s hmem
  have writable : i.Writable := by
    apply (hw.tables s hmem).indexes i
    rwa [plain.properIndexes_eq]
  apply Renders.replicate
  intro c hc
  obtain ⟨hkind, htable, -, hindex⟩ := Change.mem_ofSourceIndex hc
  have found : c.index? source = some (s, i) := by
    rw [Change.index?, htable, hs.table?_eq hmem, hindex]
    simp only [Option.bind_eq_bind, Option.bind_some, plain.index?_eq hi]
    rfl
  have written : ∃ mode, c.statement? source target = Statement.writeIndex? s.name i mode := by
    unfold Change.statement?
    rw [found]
    rcases hkind with hkind | hkind
    · rw [hkind]
      exact ⟨.create, rfl⟩
    · rw [hkind]
      exact ⟨.overwrite, rfl⟩
  obtain ⟨mode, hmode⟩ := written
  rw [hmode]
  exact gives_writeIndex writable (plain.indexes i hi) (hw.tables s hmem).header.isName mode

end Tables

section Tables

variable {s t : Table} (ht : target.Plain) (hn : t.Named) (hmem : t ∈ target.tables)
  (hname : s.name = t.name)

include ht hn hmem hname

theorem renders_ofTargetField {f : Field} (hf : f ∈ t.fields) :
    Renders source target (Change.ofTargetField s t f)
      ((Change.ofTargetField s t f).map fun _ => removeField s.name f.name) := by
  apply Renders.replicate
  intro c hc
  obtain ⟨hkind, htable, hfield, -⟩ := Change.mem_ofTargetField hc
  have found : c.field? target = some (t, f) := by
    rw [Change.field?, htable, hname, ht.table?_eq hmem, hfield]
    simp only [Option.bind_eq_bind, Option.bind_some, (ht.tables t hmem).fieldAt?_eq hf]
    rfl
  refine ⟨Statement.removeField s.name f.name, ?_, ?_⟩
  · rw [Change.statement?, hkind, htable]
    change (c.field? target).map _ = _
    rw [found]
    rfl
  · rw [hname]
    exact gives_removeField (hn.fields f hf) hn.name

theorem renders_ofTargetIndex {i : Index} (hi : i ∈ t.indexes) :
    Renders source target (Change.ofTargetIndex s i)
      ((Change.ofTargetIndex s i).map fun _ => removeIndex s.name i.name) := by
  apply Renders.replicate
  intro c hc
  obtain ⟨hkind, htable, -, hindex, -⟩ := Change.mem_ofTargetIndex hc
  have found : c.index? target = some (t, i) := by
    rw [Change.index?, htable, hname, ht.table?_eq hmem, hindex]
    simp only [Option.bind_eq_bind, Option.bind_some, (ht.tables t hmem).index?_eq hi]
    rfl
  refine ⟨Statement.removeIndex s.name i.name, ?_, ?_⟩
  · rw [Change.statement?, hkind, htable]
    change (c.index? target).map _ = _
    rw [found]
    rfl
  · rw [hname]
    exact gives_removeIndex (hn.indexes i hi) hn.name

end Tables

/-! ## The changes of a schema -/

theorem renders_ofTables {s t : Table} (hs : source.Plain) (hw : source.Writable)
    (hsm : s ∈ source.tables) (ht : target.Plain) (hn : t.Named) (htm : t ∈ target.tables)
    (hname : s.name = t.name) :
    Renders source target (Change.ofTables s t) (ofTables s t) := by
  apply Renders.append
  · apply Renders.append
    · apply Renders.append
      · apply Renders.append
        · exact renders_ofKind hs hw hsm
        · exact Renders.flatMap fun f hf => renders_ofSourceField hs hw hsm hf
      · exact Renders.flatMap fun f hf => renders_ofTargetField ht hn htm hname hf
    · exact Renders.flatMap fun i hi => renders_ofSourceIndex hs hw hsm hi
  · exact Renders.flatMap fun i hi => renders_ofTargetIndex ht hn htm hname hi

/-- The migration of a plain schema is read as its instructions. -/
theorem renders_compare (hs : source.Plain) (hw : source.Writable) (ht : target.Plain)
    (hn : ∀ t ∈ target.tables, t.Named) :
    Renders source target (source.compare target .push) (ofSchemas source target) := by
  apply Renders.append
  · apply Renders.append
    · rw [List.map_eq_flatMap]
      apply Renders.flatMap
      intro s hsm
      have hsm := (List.mem_filter.mp hsm).1
      apply Renders.singleton _ (mapM_read?_script (hw.tables s hsm))
      change (source.table? s.name).map _ = _
      rw [hs.table?_eq hsm]
      rfl
    · rw [List.map_eq_flatMap, List.map_eq_flatMap]
      apply Renders.flatMap
      intro t htm
      have htm := (List.mem_filter.mp htm).1
      apply Renders.singleton _ (mapM_read?_of_gives (gives_removeTable (hn t htm).name))
      change (target.table? t.name).map _ = _
      rw [ht.table?_eq htm]
      rfl
  · apply Renders.flatMap
    intro s hsm
    rw [ht.lastTable?_eq]
    cases found : target.table? s.name with
    | none => exact .nil
    | some t =>
      obtain ⟨htm, hname⟩ := find?_key_eq_some found
      exact (renders_ofTables hs hw hsm ht (hn t htm) htm hname.symm).describe _

end Instruction

end SchemaDrift
