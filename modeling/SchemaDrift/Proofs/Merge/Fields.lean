import SchemaDrift.Proofs.Change.About
import SchemaDrift.Proofs.Merge.Insertion
import SchemaDrift.Proofs.Merge.Removal

namespace SchemaDrift.Merge

open Code

/-!
# Merges of fields

Where the list of fields is a list of groups, a merge changes just the entries that it reports: it
deletes the first entry of each field that it comments out, and puts the entries that it adds behind
the others. The code around the list stays the same.
-/

/-- The entries without the first one of each field. -/
def withoutNamed (entries names : List Text) : List Text :=
  names.foldl (fun es name => es.eraseP (isNamed name)) entries

/-- Whether the text is the entry that is written for the field of this name, up to the indentation
of its first line. -/
def IsEntryOf (table : Table) (name entry : Text) : Prop :=
  ∃ f indent, table.field? name = some f ∧ (∀ c ∈ indent, Text.isBlank c = true) ∧
    Source.entry indent f.name (Declaration.ofField table f) = indent ++ entry

variable {markers : Markers} {database code : Table} {o : Outcome} {c : Change}
  {changes : List Change} {pre post : List Piece} {parts : List Code.Part} {close : Char} {t : Text}

/-- Whether what a merge did to the fields of a text is the same before and after a step. -/
def SameFields (o o' : Outcome) : Prop :=
  o'.text = o.text ∧ o'.removedFields = o.removedFields ∧ o'.addedFields = o.addedFields

theorem sameFields_passOver (roots : List Text) (o : Outcome) (name : Text) :
    SameFields o (passOver roots o name) := by
  unfold passOver
  split <;> exact ⟨rfl, rfl, rfl⟩

/-! ## Fields that are commented out -/

/-- Either nothing happens to the fields, or one is commented out. -/
theorem removeStep_cases (markers : Markers) (roots : List Text) (o : Outcome)
    (hc : c.kind ≠ .indexRemoved) : SameFields o (removeStep markers roots o c) ∨
      ∃ name text, removeField o.text name markers.removed = .ok text ∧
        removeStep markers roots o c =
          { o with text, removedFields := o.removedFields ++ [name] } := by
  unfold removeStep
  split
  · rename_i name _ _
    unfold takeField
    split
    · split
      · rename_i text htext
        exact .inr ⟨name, text, htext, rfl⟩
      · exact .inl ⟨rfl, rfl, rfl⟩
    · exact .inl (sameFields_passOver roots o name)
  · exact absurd ‹c.kind = .indexRemoved› hc
  · exact .inl ⟨rfl, rfl, rfl⟩

theorem listed_foldl_removeStep (rs : List Text) (h : Listed o.text pre parts post close)
    (ha : Alternate false parts) (hm : '\n' ∉ markers.removed)
    (hc : ∀ c ∈ changes, c.kind ≠ .indexRemoved) :
    ∃ parts' names, Listed (changes.foldl (removeStep markers rs) o).text pre parts' post close ∧
      Alternate false parts' ∧ elementsOf parts' = withoutNamed (elementsOf parts) names ∧
        (changes.foldl (removeStep markers rs) o).removedFields = o.removedFields ++ names ∧
          (changes.foldl (removeStep markers rs) o).addedFields = o.addedFields := by
  induction changes generalizing o parts with
  | nil => exact ⟨parts, [], h, ha, rfl, by simp, rfl⟩
  | cons c changes ih =>
    obtain ⟨hkind, hrest⟩ := List.forall_mem_cons.mp hc
    rw [List.foldl_cons]
    rcases removeStep_cases markers rs o hkind with ⟨htext, hremoved, hadded⟩ |
      ⟨name, text, hfield, hstep⟩
    · rw [← htext] at h
      rw [← hremoved, ← hadded]
      exact ih h ha hrest
    · obtain ⟨parts₁, h₁, ha₁, helements⟩ := h.removeField ha hm hfield
      have listed : Listed (removeStep markers rs o c).text pre parts₁ post close := by
        rwa [hstep]
      obtain ⟨parts₂, names, h₂, ha₂, hrun, hremoved, hadded⟩ := ih listed ha₁ hrest
      refine ⟨parts₂, name :: names, h₂, ha₂, ?_, ?_, ?_⟩
      · rw [hrun, helements]
        rfl
      · rw [hremoved, hstep]
        simp
      · rw [hadded, hstep]

/-! ## Fields that are inserted -/

/-- Either nothing happens to the fields, or one is inserted. -/
theorem addStep_cases (markers : Markers) (roots : List Text) (database : Table) (o : Outcome)
    (hc : c.kind ≠ .indexAdded) : SameFields o (addStep markers roots database o c) ∨
      ∃ f text, database.field? f.name = some f ∧
        insertField o.text database f markers.added = .ok text ∧
          addStep markers roots database o c =
            { o with text, addedFields := o.addedFields ++ [f.name] } := by
  unfold addStep
  split
  · split
    · rename_i f hf
      obtain ⟨name, -, hname⟩ := Option.bind_eq_some_iff.mp hf
      have found : database.fields.find? (·.name == name) = some f := hname
      have own : f.name = name := by simpa using List.find?_some found
      unfold putField
      split
      · split
        · rename_i text htext
          exact .inr ⟨f, text, own.symm ▸ hname, htext, rfl⟩
        · exact .inl ⟨rfl, rfl, rfl⟩
      · exact .inl (sameFields_passOver roots o f.name)
    · exact .inl ⟨rfl, rfl, rfl⟩
  · exact absurd ‹c.kind = .indexAdded› hc
  all_goals exact .inl ⟨rfl, rfl, rfl⟩

theorem listed_foldl_addStep (rs : List Text) (database : Table)
    (h : Listed o.text pre parts post close) (ha : Alternate false parts)
    (hm : '\n' ∉ markers.added) (hc : ∀ c ∈ changes, c.kind ≠ .indexAdded) :
    ∃ parts' names added,
      Listed (changes.foldl (addStep markers rs database) o).text pre parts' post close ∧
        Alternate false parts' ∧ elementsOf parts' = elementsOf parts ++ added ∧
          List.Forall₂ (IsEntryOf database) names added ∧
            (changes.foldl (addStep markers rs database) o).addedFields = o.addedFields ++ names ∧
              (changes.foldl (addStep markers rs database) o).removedFields = o.removedFields := by
  induction changes generalizing o parts with
  | nil => exact ⟨parts, [], [], h, ha, by simp, .nil, by simp, rfl⟩
  | cons c changes ih =>
    obtain ⟨hkind, hrest⟩ := List.forall_mem_cons.mp hc
    rw [List.foldl_cons]
    rcases addStep_cases markers rs database o hkind with ⟨htext, hremoved, hadded⟩ |
      ⟨f, text, hf, hfield, hstep⟩
    · rw [← htext] at h
      rw [← hremoved, ← hadded]
      exact ih h ha hrest
    · obtain ⟨parts₁, indent, entry, h₁, ha₁, helements, hindent, hentry⟩ :=
        h.insertField ha hm (List.mem_of_find?_eq_some hf) hfield
      have listed : Listed (addStep markers rs database o c).text pre parts₁ post close := by
        rwa [hstep]
      obtain ⟨parts₂, names, added, h₂, ha₂, hrun, hall, hadded, hremoved⟩ := ih listed ha₁ hrest
      refine ⟨parts₂, f.name :: names, entry :: added, h₂, ha₂, ?_, ?_, ?_, ?_⟩
      · rw [hrun, helements]
        simp
      · exact .cons ⟨f, indent, hf, hindent, hentry⟩ hall
      · rw [hadded, hstep]
        simp
      · rw [hremoved, hstep]

/-! ## Whole merges -/

theorem kind_ne_of_indexes (h : ∀ i, i ∈ database.indexes ↔ i ∈ code.indexes)
    (hc : c ∈ database.compare code .pull) : c.kind ≠ .indexRemoved ∧ c.kind ≠ .indexAdded := by
  have named {t : Table} {i : Index} (hi : i ∈ t.indexes) : t.index? i.name ≠ none := fun hn => by
    have := List.find?_eq_none.mp hn i hi
    simp at this
  obtain ⟨d, hd, rfl⟩ := List.mem_map.mp hc
  change d.kind ≠ _ ∧ d.kind ≠ _
  rcases Change.mem_ofTables.mp hd with hd | ⟨f, -, hd⟩ | ⟨f, -, hd⟩ | ⟨i, hi, hd⟩ | ⟨i, hi, hd⟩
  · rw [(Change.mem_ofKind hd).1]
    decide
  · have kinds := (Change.mem_ofSourceField hd).1
    constructor <;> intro hk <;> rw [hk] at kinds <;> cases kinds
  · rw [(Change.mem_ofTargetField hd).1]
    decide
  · refine ⟨?_, fun hk => named ((h i).mp hi) (Change.index?_of_indexAdded hd hk)⟩
    rcases (Change.mem_ofSourceIndex hd).1 with hk | hk <;> rw [hk] <;> decide
  · exact absurd (Change.mem_ofTargetIndex hd).2.2.2.2 (named ((h i).mpr hi))

theorem sameFields_foldl (step : Outcome → Change → Outcome) (changes : List Change)
    (ho : fieldsList? o.text = none)
    (h : ∀ o, fieldsList? o.text = none → ∀ c ∈ changes, SameFields o (step o c)) :
    SameFields o (changes.foldl step o) := by
  induction changes generalizing o with
  | nil => exact ⟨rfl, rfl, rfl⟩
  | cons c changes ih =>
    obtain ⟨htext, hremoved, hadded⟩ := h o ho c List.mem_cons_self
    obtain ⟨htext', hremoved', hadded'⟩ := ih (htext ▸ ho) fun o ho c hc =>
      h o ho c (List.mem_cons_of_mem _ hc)
    exact ⟨htext'.trans htext, hremoved'.trans hremoved, hadded'.trans hadded⟩

/-- Without a list of fields no field is merged. -/
theorem sameFields_merge (h : fieldsList? t = none)
    (hi : ∀ i, i ∈ database.indexes ↔ i ∈ code.indexes) :
    SameFields { text := t } (merge markers t database code) := by
  obtain ⟨htext, hremoved, hadded⟩ := sameFields_foldl (o := { text := t })
    (removeStep markers (roots .fieldRemoved (database.compare code .pull)))
    (database.compare code .pull) h fun o ho c hc =>
      (removeStep_cases markers _ o (kind_ne_of_indexes hi hc).1).resolve_right <| by
        rintro ⟨name, text, hfield, -⟩
        rw [removeField, ho] at hfield
        cases hfield
  obtain ⟨htext', hremoved', hadded'⟩ := sameFields_foldl
    (addStep markers (roots .fieldAdded (database.compare code .pull)) database)
    (database.compare code .pull) (by rw [htext]; exact h) fun o ho c hc =>
      (addStep_cases markers _ database o (kind_ne_of_indexes hi hc).2).resolve_right <| by
        rintro ⟨f, text, -, hfield, -⟩
        rw [insertField, ho] at hfield
        cases hfield
  exact ⟨htext'.trans htext, hremoved'.trans hremoved, hadded'.trans hadded⟩

/-- A merge changes the list of fields by the entries that it reports, and nothing else in it. -/
theorem exists_listed_merge (hadded : '\n' ∉ markers.added) (hremoved : '\n' ∉ markers.removed)
    (hi : ∀ i, i ∈ database.indexes ↔ i ∈ code.indexes) (h : Listed t pre parts post close)
    (ha : Alternate false parts) :
    ∃ parts' added, Listed (merge markers t database code).text pre parts' post close ∧
      Alternate false parts' ∧
      elementsOf parts' =
        withoutNamed (elementsOf parts) (merge markers t database code).removedFields ++ added ∧
      List.Forall₂ (IsEntryOf database) (merge markers t database code).addedFields added := by
  have kinds {c : Change} (hc : c ∈ database.compare code .pull) := kind_ne_of_indexes hi hc
  obtain ⟨parts₁, removed, listed₁, alternate₁, helements₁, hremoved₁, hadded₁⟩ :=
    listed_foldl_removeStep (o := { text := t }) (roots .fieldRemoved (database.compare code .pull))
      h ha hremoved fun c hc => (kinds hc).1
  obtain ⟨parts₂, names, added, listed₂, alternate₂, helements₂, hall, hadded₂, hremoved₂⟩ :=
    listed_foldl_addStep (roots .fieldAdded (database.compare code .pull)) database listed₁
      alternate₁ hadded fun c hc => (kinds hc).2
  have names₁ : (merge markers t database code).removedFields = removed :=
    hremoved₂.trans (hremoved₁.trans (List.nil_append removed))
  have names₂ : (merge markers t database code).addedFields = names := by
    refine hadded₂.trans ?_
    rw [hadded₁]
    exact List.nil_append names
  refine ⟨parts₂, added, listed₂, alternate₂, ?_, names₂ ▸ hall⟩
  rw [helements₂, helements₁, names₁]

/-- Let each entry of the list of fields, if there is one, be a group in parentheses, and let no
backslash follow a quote that starts no literal. Then merging tables with the same indexes keeps the
code outside the list, deletes the first entry of each field that it reports as removed, and puts
the entries of the fields that it reports as added behind the others. -/
theorem entryTexts_merge (hadded : '\n' ∉ markers.added) (hremoved : '\n' ∉ markers.removed)
    (hquotes : NoLooseQuote (pieces 0 none t))
    (hgroups : ∀ opening closing, fieldsList? t = some (opening, closing) →
      ∀ e ∈ entries t opening closing, IsGroup t e)
    (hi : ∀ i, i ∈ database.indexes ↔ i ∈ code.indexes) :
    codeOutside (merge markers t database code).text = codeOutside t ∧
      ∃ added, entryTexts (merge markers t database code).text =
          withoutNamed (entryTexts t) (merge markers t database code).removedFields ++ added ∧
        List.Forall₂ (IsEntryOf database) (merge markers t database code).addedFields added := by
  cases hlist : fieldsList? t with
  | none =>
    obtain ⟨htext, hr, ha⟩ : SameFields { text := t } (merge markers t database code) :=
      sameFields_merge hlist hi
    rw [htext, hr, ha]
    exact ⟨rfl, [], by simp [withoutNamed], .nil⟩
  | some brackets =>
    obtain ⟨opening, closing⟩ := brackets
    obtain ⟨pre, parts, post, close, listed, alternate⟩ :=
      exists_listed hlist (hgroups opening closing hlist) hquotes
    obtain ⟨parts', added, merged, alternate', helements, hall⟩ :=
      exists_listed_merge hadded hremoved hi listed alternate
    refine ⟨merged.codeOutside_eq.trans listed.codeOutside_eq.symm, added, ?_, hall⟩
    rw [merged.entryTexts_eq alternate', listed.entryTexts_eq alternate, helements]

/-- A list with quotes in a comment and in a raw literal, and without a comma behind its last
entry. -/
def editedText : Text :=
  "m(\"t\").fields(vec![\n  (\"a\", s()), // it's\n  (\"b\", x(r\"'\\\"))\n])"

def editedTable (field : Text) : Table :=
  { name := "t", fields := [{ name := "a", type := "string" }, { name := field, type := "int" }] }

theorem entryTexts_merge_edited :
    codeOutside (merge {} editedText (editedTable "c") (editedTable "b")).text =
        codeOutside editedText ∧
      ∃ added, entryTexts (merge {} editedText (editedTable "c") (editedTable "b")).text =
          withoutNamed (entryTexts editedText)
            (merge {} editedText (editedTable "c") (editedTable "b")).removedFields ++ added ∧
        List.Forall₂ (IsEntryOf (editedTable "c"))
          (merge {} editedText (editedTable "c") (editedTable "b")).addedFields added := by
  refine entryTexts_merge (by decide) (by decide) (by decide +kernel) (fun opening closing h => ?_)
    fun _ => Iff.rfl
  have list : fieldsList? editedText = some (18, 60) := by decide +kernel
  obtain ⟨rfl, rfl⟩ := Prod.mk.inj (Option.some.inj (list.symm.trans h))
  decide +kernel

end SchemaDrift.Merge
