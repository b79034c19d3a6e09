import SchemaDrift.Proofs.Merge.Accounting
import SchemaDrift.Proofs.Merge.Generated
import SchemaDrift.Proofs.Merge.OwnLines

namespace SchemaDrift.Merge

open Code

/-!
# Inventories

The inventory of a file with a layout is what a merge can find in it: the names of the listed
fields, the functions of the indexes, and the elements of the list of definitions. Whatever the
tables are, the removals of a merge take declarations out of the inventory, and its additions put
others behind the rest.
-/

variable {markers : Markers} {t t' name marker : Text} {o o' o'' : Outcome} {c : Change}
  {cs : List Change} {p : Part} {ps : List Part} {database code : Table} {l : Layout}

def Part.field? : Part → Option Text
  | .field name => some name
  | .index _ => none

def Part.index? : Part → Option Text
  | .field _ => none
  | .index name => some name

structure Inventory where
  fields : List Text
  functions : List Text
  elements : List Text

namespace Inventory

/-- Whether there is an entry for a field, or a function for an index. -/
def Has (v : Inventory) : Part → Prop
  | .field name => ∃ n ∈ v.fields, Path.normal n = Path.normal name
  | .index name => Source.functionOf name ∈ v.functions

/-- The inventory without its first declaration of a field or an index. The first element that
starts with the call of the function goes with it. -/
def lose (v : Inventory) : Part → Inventory
  | .field name => { v with fields := v.fields.eraseP fun n => Path.normal n = Path.normal name }
  | .index name => { v with
      functions := v.functions.eraseP (· = Source.functionOf name)
      elements := v.elements.eraseP fun x => decide (callOf (Source.functionOf name) <+: x) }

/-- The inventory with another declaration of a field or an index. -/
def gain (v : Inventory) : Part → Inventory
  | .field name => { v with fields := v.fields ++ [name.flatMap Text.escape] }
  | .index name => { v with
      functions := v.functions ++ [Source.functionOf name]
      elements := v.elements ++ [Source.definition (Source.functionOf name)] }

variable {v : Inventory}

theorem functions_lose (v : Inventory) (p : Part) : (v.lose p).functions.Sublist v.functions := by
  cases p with
  | field name => exact List.Sublist.refl _
  | index name => exact List.eraseP_sublist

theorem fields_lose (v : Inventory) (p : Part) : (v.lose p).fields.Sublist v.fields := by
  cases p with
  | field name => exact List.eraseP_sublist
  | index name => exact List.Sublist.refl _

theorem Has.of_lose {q : Part} (h : (v.lose p).Has q) : v.Has q := by
  cases q with
  | field name =>
    obtain ⟨n, hn, hname⟩ := h
    exact ⟨n, (v.fields_lose p).subset hn, hname⟩
  | index name => exact (v.functions_lose p).subset h

theorem Has.gain {q : Part} (h : v.Has q) (p : Part) : (v.gain p).Has q := by
  cases q with
  | field name =>
    obtain ⟨n, hn, hname⟩ := h
    refine ⟨n, ?_, hname⟩
    cases p with
    | field m => exact List.mem_append_left _ hn
    | index m => exact hn
  | index name =>
    cases p with
    | field m => exact h
    | index m => exact List.mem_append_left _ h

/-- Whether a declaration is there once at most. -/
def Once (v : Inventory) : Part → Prop
  | .field name => v.fields.countP (fun n => Path.normal n = Path.normal name) ≤ 1
  | .index name => v.functions.countP (· = Source.functionOf name) ≤ 1

theorem once_index (h : v.functions.Nodup) (name : Text) : v.Once (.index name) := by
  have once := List.nodup_iff_count_le_one.mp h (Source.functionOf name)
  simpa [List.count, Once, beq_eq_decide] using once

theorem once_field (h : (v.fields.map Path.normal).Nodup) (name : Text) :
    v.Once (.field name) := by
  have once := List.nodup_iff_count_le_one.mp h (Path.normal name)
  rw [List.count, List.countP_map] at once
  simpa [Once, Function.comp_def, beq_eq_decide] using once

theorem Once.lose {q : Part} (h : v.Once q) (p : Part) : (v.lose p).Once q := by
  cases q with
  | field name => exact ((v.fields_lose p).countP_le).trans h
  | index name => exact ((v.functions_lose p).countP_le).trans h

/-- A declaration that was there once is gone. -/
theorem Once.not_has_lose (h : v.Once p) : ¬ (v.lose p).Has p := by
  have gone {q : Text → Bool} {l : List Text} (hl : l.countP q ≤ 1) : ∀ a ∈ l.eraseP q, ¬ q a := by
    refine List.countP_eq_zero.mp ?_
    induction l with
    | nil => rfl
    | cons a l ih =>
      cases ha : q a with
      | true =>
        rw [List.countP_cons_of_pos ha] at hl
        rw [List.eraseP_cons_of_pos ha]
        omega
      | false =>
        rw [List.countP_cons_of_neg (by simp [ha])] at hl
        rw [List.eraseP_cons_of_neg (by simp [ha]), List.countP_cons_of_neg (by simp [ha]), ih hl]
  cases p with
  | field name =>
    rintro ⟨n, hn, hname⟩
    exact gone h n hn (decide_eq_true hname)
  | index name => exact fun hin => gone h _ hin (decide_eq_true rfl)

end Inventory

/-! ## Files with an inventory -/

def Layout.inventory (l : Layout) : Inventory := ⟨l.block.names, l.functions, l.listed.texts⟩

/-- Whether a text has a layout with this inventory. -/
def Holds (t : Text) (v : Inventory) : Prop := ∃ l : Layout, t = l.text ∧ l.inventory = v

variable {v : Inventory}

theorem Layout.holds (l : Layout) : Holds l.text l.inventory := ⟨l, rfl, rfl⟩

namespace Holds

variable (h : Holds t v)
include h

theorem filterMap_entryTexts : (entryTexts t).filterMap entryName? = v.fields := by
  obtain ⟨l, rfl, rfl⟩ := h
  rw [l.isListed.entryTexts_eq l.block.alternate, l.block.filterMap_entryName?_parts]
  rfl

theorem isSome_fieldsList? : (fieldsList? t).isSome = true := by
  obtain ⟨l, rfl, rfl⟩ := h
  rw [l.isListed.framed.fieldsList?_eq]
  rfl

theorem definitionTexts_eq : definitionTexts t = v.elements := by
  obtain ⟨l, rfl, rfl⟩ := h
  exact definitionTexts_of_cells l.ends.inBody l.listed.isLoose l.listed.areCells

theorem isSome_function?_iff :
    (function? t (Source.functionOf name)).isSome = true ↔ v.Has (.index name) := by
  obtain ⟨l, rfl, rfl⟩ := h
  constructor
  · intro hfound
    by_contra hnot
    rw [l.function?_eq_none (isIdent_functionOf name) (Source.functionOf_ne_model name)
      (functionOf_ne_aggregate name) hnot] at hfound
    cases hfound
  · intro hin
    obtain ⟨as, s, bs, f, hsegments, hbody, hf, before, -⟩ := l.exists_segment hin
    rw [← hf, l.function?_eq_some hsegments hbody before]
    rfl

end Holds

/-! ## Edits -/

theorem Layout.stays_of_not_has (h : ¬ l.inventory.Has (.field name)) (marker : Text) :
    Stays marker l.text name := by
  have unnamed : ∀ x ∈ elementsOf l.block.parts, isNamed name x = false := by
    intro x hx
    rw [Bool.eq_false_iff]
    intro hnamed
    obtain ⟨n, hn, hname⟩ := isNamed_iff.mp hnamed
    refine h ⟨n, ?_, hname⟩
    change n ∈ l.block.names
    rw [← l.block.filterMap_entryName?_parts]
    exact List.mem_filterMap.mpr ⟨x, hx, hn⟩
  intro t' hr
  rw [l.isListed.removeField_of_not_named l.block.alternate unnamed] at hr
  cases hr

theorem Layout.exists_removeField (h : l.inventory.Has (.field name)) (hm : '\n' ∉ marker) :
    ∃ l' : Layout, Merge.removeField l.text name marker = .ok l'.text ∧
      l'.inventory = l.inventory.lose (.field name) := by
  obtain ⟨m, hmem, hname⟩ := h
  have wanted : (decide (Path.normal m = Path.normal name)) = true := decide_eq_true hname
  obtain ⟨n, ns, ms, hbefore, hn, hsplit, herase⟩ :=
    List.exists_of_eraseP (p := fun n => decide (Path.normal n = Path.normal name)) hmem wanted
  change l.block.names = _ at hsplit
  change l.block.names.eraseP _ = _ at herase
  cases hblock : l.block with
  | inline =>
    rw [hblock] at hsplit
    simp [FieldBlock.names, FieldBlock.rows] at hsplit
  | lines rows tail hi =>
    have split : rows.filterMap Row.name? = ns ++ n :: ms := by
      rw [← hsplit, hblock]
      rfl
    obtain ⟨as, r, bs, rfl, hr, has, hbs⟩ := exists_of_filterMap_eq split
    cases r with
    | gap g => cases hr
    | entry e =>
      obtain rfl : e.name = n := Option.some.inj hr
      have before : ∀ m ∈ as.filterMap Row.name?, Path.normal m ≠ Path.normal name := by
        intro m hmem
        rw [has] at hmem
        simpa using hbefore m hmem
      obtain ⟨g, hremove⟩ := Layout.removeField hblock (of_decide_eq_true hn) before hm
      refine ⟨_, hremove, ?_⟩
      have names : (as ++ .gap g :: bs).filterMap Row.name? = ns ++ ms := by
        rw [List.filterMap_append, has, List.filterMap_cons, hbs]
        rfl
      change Inventory.mk ((as ++ .gap g :: bs).filterMap Row.name?) _ _ =
        Inventory.mk (l.block.names.eraseP _) _ _
      rw [names, herase]
      rfl

theorem Layout.exists_insertField {table : Table} {f : Field} (hf : f ∈ table.fields)
    (hm : '\n' ∉ marker) (l : Layout) : ∃ l' : Layout,
      Merge.insertField l.text table f marker = .ok l'.text ∧
        l'.inventory = l.inventory.gain (.field f.name) := by
  obtain ⟨g, e, tail, hi, hname, hinsert⟩ := l.insertField hf hm
  refine ⟨_, hinsert, ?_⟩
  have names : (l.block.rows ++ [Row.gap g, .entry e]).filterMap Row.name? =
      l.block.names ++ [f.name.flatMap Text.escape] := by
    rw [List.filterMap_append, ← hname]
    rfl
  change Inventory.mk ((l.block.rows ++ [Row.gap g, .entry e]).filterMap Row.name?) _ _ = _
  rw [names]
  rfl

theorem Layout.removeIndex_ne_ok (h : ¬ l.inventory.Has (.index name)) (marker t' : Text) :
    Merge.removeIndex l.text name marker ≠ .ok t' := by
  have free := l.function?_eq_none (isIdent_functionOf name) (Source.functionOf_ne_model name)
    (functionOf_ne_aggregate name) h
  intro hr
  rw [Merge.removeIndex] at hr
  simp only [free] at hr
  cases hr

theorem Layout.exists_removeIndex (h : l.inventory.Has (.index name)) (hm : '\n' ∉ marker) :
    ∃ l' : Layout, Merge.removeIndex l.text name marker = .ok l'.text ∧
      l'.inventory = l.inventory.lose (.index name) := by
  obtain ⟨as, s, bs, f, hsegments, hbody, hf, before, hsplit⟩ := l.exists_segment h
  obtain ⟨g, d, hremove, hd⟩ := l.removeIndex hsegments hbody hf before hm
  refine ⟨_, hremove, ?_⟩
  have first : Source.functionOf name ∉ as.filterMap Segment.function? := by
    intro hmem
    obtain ⟨a, ha, hname⟩ := List.mem_filterMap.mp hmem
    exact before a ha (hf ▸ hname)
  have functions : (as ++ { s with body := .gap g } :: bs).filterMap Segment.function? =
      l.functions.eraseP (· = Source.functionOf name) := by
    rw [hsplit, List.eraseP_append_right, List.eraseP_cons_of_pos (by simp), List.filterMap_append,
      List.filterMap_cons]
    · rfl
    · intro n hn
      simpa using ne_of_mem_of_not_mem hn first
  change Inventory.mk _ ((as ++ { s with body := .gap g } :: bs).filterMap Segment.function?)
    d.texts = _
  rw [functions, hd, hf]
  rfl

/-- An index whose function stands in the file is not inserted. -/
theorem Layout.insertIndex_eq_error {i : Index} (h : l.inventory.Has (.index i.name))
    (marker : Text) : Merge.insertIndex l.text i marker = .error .nameTaken := by
  rw [Merge.insertIndex]
  exact if_pos (l.holds.isSome_function?_iff.mpr h)

theorem Layout.exists_insertIndex {i : Index} (h : ¬ l.inventory.Has (.index i.name))
    (hi : i.isDetectionOnly = false) (hm : '\n' ∉ marker) : ∃ l' : Layout,
      Merge.insertIndex l.text i marker = .ok (l'.text, true) ∧
        l'.inventory = l.inventory.gain (.index i.name) := by
  obtain ⟨s, d, hs, hinsert, hd⟩ := l.insertIndex hi h hm
  refine ⟨_, hinsert, ?_⟩
  have functions : (l.segments ++ [s]).filterMap Segment.function? =
      l.functions ++ [Source.functionOf i.name] := by
    rw [List.filterMap_append, List.filterMap_cons, hs]
    rfl
  change Inventory.mk _ ((l.segments ++ [s]).filterMap Segment.function?) d.texts = _
  rw [functions, hd]
  rfl

/-! ## Steps that change nothing -/

/-- Whether the text and what was done to it are the same before and after a step. -/
structure SameEdits (o o' : Outcome) : Prop where
  text : o'.text = o.text
  addedFields : o'.addedFields = o.addedFields
  addedIndexes : o'.addedIndexes = o.addedIndexes
  removedFields : o'.removedFields = o.removedFields
  removedIndexes : o'.removedIndexes = o.removedIndexes

theorem SameEdits.refl (o : Outcome) : SameEdits o o := ⟨rfl, rfl, rfl, rfl, rfl⟩

theorem SameEdits.trans (h : SameEdits o o') (h' : SameEdits o' o'') : SameEdits o o'' :=
  ⟨h'.text.trans h.text, h'.addedFields.trans h.addedFields, h'.addedIndexes.trans h.addedIndexes,
    h'.removedFields.trans h.removedFields, h'.removedIndexes.trans h.removedIndexes⟩

theorem sameEdits_passOver (roots : List Text) (o : Outcome) (name : Text) :
    SameEdits o (passOver roots o name) := by
  unfold passOver
  split <;> exact ⟨rfl, rfl, rfl, rfl, rfl⟩

/-- Whether a declaration cannot be commented out in a text. -/
def Remains (markers : Markers) (text : Text) : Part → Prop
  | .field name => Stays markers.removed text name
  | .index name => ∀ t', removeIndex text name markers.removed ≠ .ok t'

theorem sameEdits_removeStep (roots : List Text)
    (h : ∀ p, lost? c = some p → p.isTopLevel = true → Remains markers o.text p) :
    SameEdits o (removeStep markers roots o c) := by
  cases hlost : lost? c with
  | none =>
    rw [removeStep_of_lost_none hlost]
    exact .refl o
  | some p =>
    have remains := h p hlost
    cases p with
    | field name =>
      rw [removeStep_eq_takeField hlost, takeField]
      split
      · rename_i htop
        split
        · exact absurd ‹_› (remains htop _)
        · exact ⟨rfl, rfl, rfl, rfl, rfl⟩
      · exact sameEdits_passOver roots o name
    | index name =>
      rw [removeStep_eq_takeIndex hlost, takeIndex]
      split
      · exact absurd ‹_› (remains rfl _)
      · exact ⟨rfl, rfl, rfl, rfl, rfl⟩

/-! ## Steps -/

namespace Outcome

/-- The outcome with another declaration that was taken out of the text. -/
def removing (o : Outcome) (t : Text) : Part → Outcome
  | .field name => { o with text := t, removedFields := o.removedFields ++ [name] }
  | .index name => { o with text := t, removedIndexes := o.removedIndexes ++ [name] }

/-- The outcome with another declaration that was put into the text. -/
def adding (o : Outcome) (t : Text) : Part → Outcome
  | .field name => { o with text := t, addedFields := o.addedFields ++ [name] }
  | .index name => { o with text := t, addedIndexes := o.addedIndexes ++ [name] }

theorem text_removing (o : Outcome) (t : Text) (p : Part) : (o.removing t p).text = t := by
  cases p <;> rfl

theorem text_adding (o : Outcome) (t : Text) (p : Part) : (o.adding t p).text = t := by
  cases p <;> rfl

end Outcome

theorem Holds.remains (h : Holds t v) (hp : ¬ v.Has p) (markers : Markers) :
    Remains markers t p := by
  obtain ⟨l, rfl, rfl⟩ := h
  cases p with
  | field name => exact l.stays_of_not_has hp markers.removed
  | index name => exact l.removeIndex_ne_ok hp markers.removed

/-- A removal takes the declaration out that its change finds in the code alone. -/
theorem Holds.removeStep_of_has (h : Holds o.text v) (hlost : lost? c = some p)
    (htop : p.isTopLevel = true) (hp : v.Has p) (hm : '\n' ∉ markers.removed) (roots : List Text) :
    ∃ t', removeStep markers roots o c = o.removing t' p ∧ Holds t' (v.lose p) := by
  obtain ⟨l, ho, rfl⟩ := h
  cases p with
  | field name =>
    obtain ⟨l', hremove, hl'⟩ := Layout.exists_removeField hp hm
    refine ⟨l'.text, ?_, l', rfl, hl'⟩
    rw [removeStep_eq_takeField hlost, takeField,
      if_pos (show Path.isTopLevel name = true from htop), ho, hremove]
    rfl
  | index name =>
    obtain ⟨l', hremove, hl'⟩ := Layout.exists_removeIndex hp hm
    refine ⟨l'.text, ?_, l', rfl, hl'⟩
    rw [removeStep_eq_takeIndex hlost, takeIndex, ho, hremove]
    rfl

theorem Holds.removeStep_cases (h : Holds o.text v) (hm : '\n' ∉ markers.removed)
    (roots : List Text) (c : Change) :
    (∃ p t', lost? c = some p ∧ removeStep markers roots o c = o.removing t' p ∧
      Holds t' (v.lose p)) ∨
    SameEdits o (removeStep markers roots o c) ∧
      ∀ p, lost? c = some p → p.isTopLevel = true → ¬ v.Has p := by
  by_cases hp : ∃ p, lost? c = some p ∧ p.isTopLevel = true ∧ v.Has p
  · obtain ⟨p, hlost, htop, hp⟩ := hp
    obtain ⟨t', hstep, h'⟩ := h.removeStep_of_has hlost htop hp hm roots
    exact .inl ⟨p, t', hlost, hstep, h'⟩
  · have none : ∀ p, lost? c = some p → p.isTopLevel = true → ¬ v.Has p :=
      fun p hlost htop hhas => hp ⟨p, hlost, htop, hhas⟩
    exact .inr ⟨sameEdits_removeStep roots fun p hlost htop =>
      h.remains (none p hlost htop) markers, none⟩

theorem Holds.putField {f : Field} (h : Holds o.text v) (hf : f ∈ database.fields)
    (htop : Path.isTopLevel f.name = true) (hm : '\n' ∉ markers.added) (roots : List Text) :
    ∃ t', Merge.putField markers roots database o f = o.adding t' (.field f.name) ∧
      Holds t' (v.gain (.field f.name)) := by
  obtain ⟨l, ho, rfl⟩ := h
  obtain ⟨l', hinsert, hl'⟩ := l.exists_insertField hf hm
  refine ⟨l'.text, ?_, l', rfl, hl'⟩
  rw [Merge.putField, if_pos htop, ho, hinsert]
  rfl

theorem Holds.putIndex {i : Index} (h : Holds o.text v) (hi : i.isDetectionOnly = false)
    (hnot : ¬ v.Has (.index i.name)) (hm : '\n' ∉ markers.added) :
    ∃ t', Merge.putIndex markers o i = o.adding t' (.index i.name) ∧
      Holds t' (v.gain (.index i.name)) := by
  obtain ⟨l, ho, rfl⟩ := h
  obtain ⟨l', hinsert, hl'⟩ := l.exists_insertIndex hnot hi hm
  refine ⟨l'.text, ?_, l', rfl, hl'⟩
  rw [Merge.putIndex, if_neg (by simp [hi]), ho, hinsert]
  rfl

/-- Whether the index of a change is not inserted any more: its function stands in the file, or it
is none that can be written. -/
def Settled (database : Table) (v : Inventory) (c : Change) : Prop :=
  ∀ name, gained? c = some (.index name) → v.Has (.index name) ∨
    ∃ i, database.index? name = some i ∧ i.isDetectionOnly = true

theorem Settled.gain (h : Settled database v c) (p : Part) : Settled database (v.gain p) c :=
  fun name hgained => (h name hgained).imp_left (·.gain p)

theorem Settled.congr {w : Inventory} (h : Settled database v c)
    (hf : w.functions = v.functions) : Settled database w c := by
  intro name hgained
  rw [Inventory.Has, hf]
  exact h name hgained

theorem Holds.insertIndex_ne_ok {i : Index} (h : Holds t v) (hi : v.Has (.index i.name))
    (marker t' : Text) (listed : Bool) : insertIndex t i marker ≠ .ok (t', listed) := by
  obtain ⟨l, rfl, rfl⟩ := h
  rw [Layout.insertIndex_eq_error hi]
  exact nofun

theorem sameEdits_putIndex {i : Index}
    (h : i.isDetectionOnly = false → ∀ t' listed, insertIndex o.text i markers.added ≠
      .ok (t', listed)) : SameEdits o (putIndex markers o i) := by
  unfold putIndex
  split
  · exact ⟨rfl, rfl, rfl, rfl, rfl⟩
  · rename_i hi
    split
    · exact absurd ‹_› (h (Bool.not_eq_true _ ▸ hi) _ _)
    · exact ⟨rfl, rfl, rfl, rfl, rfl⟩

theorem Holds.addStep_cases (h : Holds o.text v) (hm : '\n' ∉ markers.added)
    (hc : c ∈ database.compare code .pull) (roots : List Text) :
    (∃ p t', gained? c = some p ∧ (∀ name, p = .index name → ¬ Settled database v c) ∧
      addStep markers roots database o c = o.adding t' p ∧ Holds t' (v.gain p)) ∨
    SameEdits o (addStep markers roots database o c) ∧ Settled database v c := by
  cases hgained : gained? c with
  | none =>
    refine .inr ⟨?_, fun name hp => by rw [hgained] at hp; cases hp⟩
    rcases addStep_of_gained_none hgained o with step | step <;> rw [step]
    · exact .refl o
    · exact ⟨rfl, rfl, rfl, rfl, rfl⟩
  | some p =>
    have declared := (of_gained? hc hgained).1
    cases p with
    | field name =>
      obtain ⟨f, hf, step⟩ := exists_addStep_eq_putField hgained declared
      obtain ⟨hmem, rfl⟩ := find?_key_eq_some hf
      rw [step]
      cases htop : Path.isTopLevel f.name with
      | true =>
        obtain ⟨t', hput, h'⟩ := h.putField hmem htop hm roots
        exact .inl ⟨_, t', rfl, nofun, hput, h'⟩
      | false =>
        refine .inr ⟨?_, fun name hp => by rw [hgained] at hp; cases hp⟩
        rw [Merge.putField, if_neg (by simp [htop])]
        exact sameEdits_passOver roots o f.name
    | index name =>
      obtain ⟨i, hi, step⟩ := exists_addStep_eq_putIndex hgained declared
      obtain ⟨-, rfl⟩ := find?_key_eq_some hi
      rw [step]
      by_cases hfree : i.isDetectionOnly = false ∧ ¬ v.Has (.index i.name)
      · obtain ⟨t', hput, h'⟩ := h.putIndex hfree.1 hfree.2 hm
        refine .inl ⟨_, t', rfl, fun name _ hsettled => ?_, hput, h'⟩
        rcases hsettled i.name hgained with hhas | ⟨j, hj, hd⟩
        · exact hfree.2 hhas
        · rw [← Option.some.inj (hi.symm.trans hj), hfree.1] at hd
          cases hd
      · have settled : i.isDetectionOnly = false → v.Has (.index i.name) := fun hd =>
          by_contra fun hnot => hfree ⟨hd, hnot⟩
        refine .inr ⟨sameEdits_putIndex fun hd => h.insertIndex_ne_ok (settled hd) markers.added,
          fun name hp => ?_⟩
        obtain rfl := Part.index.inj (Option.some.inj (hgained.symm.trans hp))
        cases hd : i.isDetectionOnly with
        | false => exact .inl (settled hd)
        | true => exact .inr ⟨i, hi, hd⟩

/-! ## Runs -/

namespace Outcome

/-- What the removals of an outcome leave of an inventory. -/
def remainder (o : Outcome) (v : Inventory) : Inventory where
  fields := o.removedFields.foldl (fun ns n => ns.eraseP fun m => Path.normal m = Path.normal n)
    v.fields
  functions := o.removedIndexes.foldl (fun fs n => fs.eraseP (· = Source.functionOf n)) v.functions
  elements := o.removedIndexes.foldl
    (fun xs n => xs.eraseP fun x => decide (callOf (Source.functionOf n) <+: x)) v.elements

/-- What the edits of an outcome make of an inventory. -/
def total (o : Outcome) (v : Inventory) : Inventory where
  fields := (o.remainder v).fields ++ o.addedFields.map (·.flatMap Text.escape)
  functions := (o.remainder v).functions ++ o.addedIndexes.map Source.functionOf
  elements := (o.remainder v).elements ++
    o.addedIndexes.map fun n => Source.definition (Source.functionOf n)

theorem remainder_removing (o : Outcome) (t : Text) (p : Part) (v : Inventory) :
    (o.removing t p).remainder v = (o.remainder v).lose p := by
  cases p with
  | field name =>
    simp only [remainder, removing, List.foldl_append]
    rfl
  | index name =>
    simp only [remainder, removing, List.foldl_append]
    rfl

theorem total_adding (o : Outcome) (t : Text) (p : Part) (v : Inventory) :
    (o.adding t p).total v = (o.total v).gain p := by
  cases p <;> simp [total, adding, remainder, Inventory.gain]

end Outcome

theorem SameEdits.remainder_eq (h : SameEdits o o') (v : Inventory) :
    o'.remainder v = o.remainder v := by
  rw [Outcome.remainder, h.removedFields, h.removedIndexes]
  rfl

theorem SameEdits.total_eq (h : SameEdits o o') (v : Inventory) : o'.total v = o.total v := by
  rw [Outcome.total, h.remainder_eq, h.addedFields, h.addedIndexes]
  rfl

/-- Removals leave what their outcome says. What the changes find in the code alone is gone, if it
was there once. -/
theorem Holds.foldl_removeStep (h : Holds o.text (o.remainder v)) (hm : '\n' ∉ markers.removed)
    (roots : List Text) (cs : List Change) :
    Holds (cs.foldl (removeStep markers roots) o).text
        ((cs.foldl (removeStep markers roots) o).remainder v) ∧
      (∀ p, ((cs.foldl (removeStep markers roots) o).remainder v).Has p →
        (o.remainder v).Has p) ∧
      ∀ c ∈ cs, ∀ p, lost? c = some p → p.isTopLevel = true → (o.remainder v).Once p →
        ¬ ((cs.foldl (removeStep markers roots) o).remainder v).Has p := by
  induction cs generalizing o with
  | nil => exact ⟨h, fun _ => id, nofun⟩
  | cons c cs ih =>
    rw [List.foldl_cons]
    rcases h.removeStep_cases hm roots c with ⟨q, t', hq, step, h'⟩ | ⟨same, absent⟩
    · have left : (removeStep markers roots o c).remainder v = (o.remainder v).lose q := by
        rw [step, o.remainder_removing]
      obtain ⟨holds, kept, gone⟩ :=
        ih (o := removeStep markers roots o c) (by rwa [left, step, o.text_removing])
      rw [left] at kept gone
      refine ⟨holds, fun p hp => (kept p hp).of_lose, List.forall_mem_cons.mpr
        ⟨fun p hp _ once hhas => ?_, fun d hd p hp htop once => gone d hd p hp htop (once.lose q)⟩⟩
      obtain rfl := Option.some.inj (hq.symm.trans hp)
      exact once.not_has_lose (kept _ hhas)
    · have left := same.remainder_eq v
      obtain ⟨holds, kept, gone⟩ :=
        ih (o := removeStep markers roots o c) (by rwa [same.text, left])
      rw [left] at kept gone
      exact ⟨holds, kept, List.forall_mem_cons.mpr
        ⟨fun p hp htop _ hhas => absent p hp htop (kept p hhas), gone⟩⟩

/-- Additions leave what their outcome says, and no index to insert. -/
theorem Holds.foldl_addStep (h : Holds o.text (o.total v)) (hm : '\n' ∉ markers.added)
    (roots : List Text) (hcs : ∀ c ∈ cs, c ∈ database.compare code .pull) :
    Holds (cs.foldl (addStep markers roots database) o).text
        ((cs.foldl (addStep markers roots database) o).total v) ∧
      (∀ c, Settled database (o.total v) c →
        Settled database ((cs.foldl (addStep markers roots database) o).total v) c) ∧
      (∀ c ∈ cs, Settled database ((cs.foldl (addStep markers roots database) o).total v) c) ∧
      ∀ n ∈ (cs.foldl (addStep markers roots database) o).addedIndexes, n ∈ o.addedIndexes ∨
        ∃ c ∈ cs, gained? c = some (.index n) := by
  induction cs generalizing o with
  | nil => exact ⟨h, fun _ => id, nofun, fun _ => .inl⟩
  | cons c cs ih =>
    obtain ⟨hc, hrest⟩ := List.forall_mem_cons.mp hcs
    rw [List.foldl_cons]
    rcases h.addStep_cases hm hc roots with ⟨p, t', hp, -, step, h'⟩ | ⟨same, settled⟩
    · have more : (addStep markers roots database o c).total v = (o.total v).gain p := by
        rw [step, o.total_adding]
      obtain ⟨holds, kept, later, new⟩ :=
        ih (o := addStep markers roots database o c) (by rwa [more, step, o.text_adding]) hrest
      rw [more] at kept
      refine ⟨holds, fun d hd => kept d (hd.gain p), List.forall_mem_cons.mpr ⟨kept c ?_, later⟩,
        fun n hn => ?_⟩
      · intro name hname
        obtain rfl := Option.some.inj (hp.symm.trans hname)
        exact .inl (by simp [Inventory.Has, Inventory.gain])
      · rcases new n hn with hn | ⟨d, hd, hgained⟩
        · rw [step] at hn
          cases p with
          | field name => exact .inl hn
          | index name =>
            rcases List.mem_append.mp hn with hn | hn
            · exact .inl hn
            · rw [List.mem_singleton.mp hn]
              exact .inr ⟨c, List.mem_cons_self, hp⟩
        · exact .inr ⟨d, List.mem_cons_of_mem c hd, hgained⟩
    · have total := same.total_eq v
      obtain ⟨holds, kept, later, new⟩ :=
        ih (o := addStep markers roots database o c) (by rwa [same.text, total]) hrest
      rw [total] at kept
      refine ⟨holds, kept, List.forall_mem_cons.mpr ⟨kept c settled, later⟩, fun n hn => ?_⟩
      rcases new n hn with hn | ⟨d, hd, hgained⟩
      · exact .inl (same.addedIndexes ▸ hn)
      · exact .inr ⟨d, List.mem_cons_of_mem c hd, hgained⟩

theorem Outcome.total_eq_remainder (hfields : o.addedFields = []) (hindexes : o.addedIndexes = [])
    (v : Inventory) : o.total v = o.remainder v := by
  simp [total, hfields, hindexes]

theorem Holds.afterRemovals (h : Holds t v) (hremoved : '\n' ∉ markers.removed)
    (database code : Table) :
    Holds (Merge.afterRemovals markers t database code).text
        ((Merge.afterRemovals markers t database code).total v) ∧
      ∀ c ∈ database.compare code .pull, ∀ p, lost? c = some p → p.isTopLevel = true → v.Once p →
        ¬ ((Merge.afterRemovals markers t database code).remainder v).Has p := by
  rw [Outcome.total_eq_remainder added_afterRemovals.1 added_afterRemovals.2]
  obtain ⟨holds, -, gone⟩ := h.foldl_removeStep (o := { text := t }) hremoved
    (roots .fieldRemoved (database.compare code .pull)) (database.compare code .pull)
  exact ⟨holds, gone⟩

theorem Outcome.removed_inj (h : o.removed = o'.removed) :
    o.removedFields = o'.removedFields ∧ o.removedIndexes = o'.removedIndexes := by
  have fields (o : Outcome) : o.removed.filterMap Part.field? = o.removedFields := by
    simp [Outcome.removed, List.filterMap_map, Function.comp_def, Part.field?]
  have indexes (o : Outcome) : o.removed.filterMap Part.index? = o.removedIndexes := by
    simp [Outcome.removed, List.filterMap_map, Function.comp_def, Part.index?]
  rw [← fields, ← fields o', ← indexes, ← indexes o', h]
  exact ⟨rfl, rfl⟩

/-- The additions comment out nothing. -/
theorem removed_merge_eq : (merge markers t database code).removedFields =
      (afterRemovals markers t database code).removedFields ∧
    (merge markers t database code).removedIndexes =
      (afterRemovals markers t database code).removedIndexes :=
  Outcome.removed_inj (removed_foldl_addStep _ _ _)

/-- The inventory of a file behind a merge is what the outcome of the merge says. What was there
once and the merge found in the code alone was taken out, and the functions of all indexes stand in
the file that it found in the database alone. -/
theorem Holds.merged (h : Holds t v) (hadded : '\n' ∉ markers.added)
    (hremoved : '\n' ∉ markers.removed) (database code : Table) :
    Holds (merge markers t database code).text ((merge markers t database code).total v) ∧
      (∀ c ∈ database.compare code .pull, ∀ p, lost? c = some p → p.isTopLevel = true → v.Once p →
        ¬ ((merge markers t database code).remainder v).Has p) ∧
      (∀ c ∈ database.compare code .pull,
        Settled database ((merge markers t database code).total v) c) ∧
      ∀ n ∈ (merge markers t database code).addedIndexes,
        ∃ c ∈ database.compare code .pull, gained? c = some (.index n) := by
  obtain ⟨before, gone⟩ := h.afterRemovals hremoved database code
  obtain ⟨holds, -, settled, new⟩ := before.foldl_addStep hadded
    (roots .fieldAdded (database.compare code .pull)) fun c hc => hc
  refine ⟨holds, ?_, settled, fun n hn => (new n hn).resolve_left ?_⟩
  · rw [Outcome.remainder, removed_merge_eq.1, removed_merge_eq.2]
    exact gone
  · rw [added_afterRemovals.2]
    exact List.not_mem_nil

/-! ## A file written by hand -/

theorem isIdent_a : IsIdent "a" := ⟨by decide, by decide, by decide, by decide⟩

theorem isIdent_b : IsIdent "b" := ⟨by decide, by decide, by decide, by decide⟩

/-- The function of an index, with a short body. -/
def shortFunction (name : Text) (h : IsIdent name) (hm : name ≠ "model")
    (ha : name ≠ Source.aggregate) : IndexFunction where
  name := name
  inner := plains " index() "
  isIdent := h
  ne_model := hm
  ne_aggregate := ha
  cuts := cuts_plains (by decide) (by decide)
  isPaired := by rw [IsPaired, marks_plains]; decide
  notQuote := not_mem_plains (by decide)
  silent _ := silent_functionPattern_plains (by decide)

theorem isCore_wrapped : IsCore (plains "Definition::from(a())") :=
  isCore_plains (by decide) (by decide) (by decide) ⟨')', rfl, by decide⟩

theorem separate_wrapped : Separate (plains "Definition::from(a())") where
  silent _ := silent_functionPattern_plains (by decide)
  notQuote := not_mem_plains (by decide)
  starts := by decide
  ends := by
    rw [textOf_plains]
    decide

/-- A list of definitions on several lines, with a comment and an element that wraps a call. -/
def wrappedList : ElementList where
  lead := plains "\n        "
  cells := [⟨plains (Source.definition "model"),
      plains ", " ++ .comment ("//" ++ " first") :: plains "\n        "⟩,
    ⟨plains "Definition::from(a())", plains ", "⟩,
    ⟨plains (Source.definition "b"), plains ",\n    "⟩]
  isLoose := isLoose_plains (by decide)
  areCells := by
    have first : ∀ p ∈ plains ", " ++ .comment ("//" ++ " first") :: plains "\n        ",
        IsLoose p :=
      List.forall_mem_append.mpr ⟨isLoose_plains (by decide),
        List.forall_mem_cons.mpr ⟨.inl trivial, isLoose_plains (by decide)⟩⟩
    exact ⟨isCore_definition isIdent_model, first, .inr (by decide), isCore_wrapped,
      isLoose_plains (by decide), .inr (by decide), isCore_definition isIdent_b,
      isLoose_plains (by decide), .inl rfl, trivial⟩
  cuts := by
    have above : Cuts (plains "[\n        model().into(), ") :=
      cuts_plains (by decide) (by decide)
    have comment : Cuts [.comment ("//" ++ " first"), .plain '\n'] := cuts_comment (by decide)
    have below : Cuts (plains "        Definition::from(a()), b().into(),\n    ]\n") :=
      cuts_plains (by decide) (by decide)
    exact above.append (comment.append below)
  separate s hs := by
    simp only [List.mem_cons, List.not_mem_nil, or_false] at hs
    rcases hs with rfl | rfl | rfl
    · exact separate_definition isIdent_model
    · exact separate_wrapped
    · exact separate_definition isIdent_b

theorem opens_short :
    Opens (plains "pub fn model() -> Model \x7b\n    " ++ plains "Model::table(T)") :=
  opens_head.append (opens_run (by decide))

/-- A file with the functions of two indexes and that list. -/
def handWritten : Layout where
  opening := opens_short.opening
  block := .inline
  segments := [⟨none, nofun, .function (shortFunction "a" isIdent_a (by decide) (by decide))⟩,
    ⟨some "by hand", by decide, .function (shortFunction "b" isIdent_b (by decide) (by decide))⟩]
  listed := wrappedList

end SchemaDrift.Merge
