import SchemaDrift.Proofs.Merge.Additive
import SchemaDrift.Proofs.Merge.OwnLines
import SchemaDrift.Proofs.Merge.Session

namespace SchemaDrift.Merge

open Code

/-!
# Merging again

When the same tables are merged again, nothing is commented out and no index is inserted: what the
first merge did is seen in the text. Only the entry of a field is not looked for before it is
inserted, so each field that the first merge added is added again. The run is the same for all
files; what it needs of the indexes is an invariant of the text, another one for each kind of file.
-/

variable {names : Text → Prop} {v : Inventory} {markers : Markers} {o o' o'' : Outcome} {c : Change}
  {cs : List Change} {database code : Table} {t t' name marker : Text} {pre post : List Piece}
  {parts : List Code.Part} {close : Char}

/-! ## Lengths -/

theorem length_insertAt (t : Text) (place : Nat) (s : Text) :
    (Text.insertAt t place s).length = t.length + s.length := by
  have halves : (t.take place).length + (t.drop place).length = t.length := by
    rw [← List.length_append, List.take_append_drop]
  simp only [Text.insertAt, List.length_append]
  omega

theorem length_lt_insertAt (t : Text) (place : Nat) {s : Text} (hs : s ≠ []) :
    t.length < (Text.insertAt t place s).length := by
  rw [length_insertAt]
  exact Nat.lt_add_of_pos_right (List.length_pos_of_ne_nil hs)

theorem length_le_closeLast (entries : List Entry) (t : Text) :
    t.length ≤ (closeLast entries t).length := by
  unfold closeLast
  split
  · exact (length_lt_insertAt t _ (by decide)).le
  · exact le_rfl

theorem length_lt_of_insertField {f : Field}
    (h : insertField t database f marker = .ok t') : t.length < t'.length := by
  unfold insertField at h
  split at h
  · cases h
  · obtain rfl := Except.ok.inj h
    refine lt_of_lt_of_le ?_ (length_le_closeLast _ _)
    split <;> exact length_lt_insertAt t _ (by simp)

/-- Where there is a list of fields, every field can be inserted. -/
theorem exists_insertField (h : (fieldsList? t).isSome = true) (table : Table) (f : Field)
    (marker : Text) : ∃ t', insertField t table f marker = .ok t' := by
  obtain ⟨brackets, hbrackets⟩ := Option.isSome_iff_exists.mp h
  rw [insertField, hbrackets]
  exact ⟨_, rfl⟩

/-! ## Steps that change nothing -/

theorem sameEdits_foldl_removeStep (roots : List Text)
    (h : ∀ p ∈ cs.filterMap lost?, p.isTopLevel = true → Remains markers o.text p) :
    SameEdits o (cs.foldl (removeStep markers roots) o) := by
  induction cs generalizing o with
  | nil => exact .refl o
  | cons c cs ih =>
    have first := sameEdits_removeStep (o := o) roots fun p hp =>
      h p (mem_filterMap_cons.mpr (.inl hp))
    refine first.trans (ih fun p hp htop => ?_)
    rw [first.text]
    exact h p (mem_filterMap_cons.mpr (.inr hp)) htop

/-! ## Steps that make the text longer -/

/-- Whether nothing is done to a text but that fields are commented out or inserted, each of which
makes it longer. -/
structure Lengthens (o o' : Outcome) : Prop where
  addedIndexes : o'.addedIndexes = o.addedIndexes
  removedIndexes : o'.removedIndexes = o.removedIndexes
  fields : SameFields o o' ∨ o.text.length < o'.text.length ∧
    o.addedFields.length + o.removedFields.length < o'.addedFields.length + o'.removedFields.length

theorem SameEdits.lengthens (h : SameEdits o o') : Lengthens o o' :=
  ⟨h.addedIndexes, h.removedIndexes, .inl ⟨h.text, h.removedFields, h.addedFields⟩⟩

theorem Lengthens.trans (h : Lengthens o o') (h' : Lengthens o' o'') : Lengthens o o'' := by
  refine ⟨h'.addedIndexes.trans h.addedIndexes, h'.removedIndexes.trans h.removedIndexes, ?_⟩
  rcases h.fields with ⟨htext, hremoved, hadded⟩ | ⟨hlonger, hmore⟩
  · unfold SameFields
    rw [← htext, ← hremoved, ← hadded]
    exact h'.fields
  · right
    rcases h'.fields with ⟨htext, hremoved, hadded⟩ | ⟨hlonger', hmore'⟩
    · rw [htext, hremoved, hadded]
      exact ⟨hlonger, hmore⟩
    · exact ⟨hlonger.trans hlonger', hmore.trans hmore'⟩

theorem Lengthens.text_eq_iff (h : Lengthens o o') : o'.text = o.text ↔
    o'.addedFields = o.addedFields ∧ o'.removedFields = o.removedFields := by
  rcases h.fields with ⟨htext, hremoved, hadded⟩ | ⟨hlonger, hmore⟩
  · exact iff_of_true htext ⟨hadded, hremoved⟩
  · refine iff_of_false (fun htext => ?_) fun hfields => ?_
    · rw [htext] at hlonger
      exact hlonger.false
    · rw [hfields.1, hfields.2] at hmore
      exact hmore.false

/-- Steps that lengthen a text one by one do so together, as long as an invariant of the text holds
that each of them keeps. -/
theorem lengthens_foldl {step : Outcome → Change → Outcome} {P : Text → Prop}
    (h : ∀ o c, c ∈ cs → P o.text → Lengthens o (step o c) ∧ P (step o c).text) (ho : P o.text) :
    Lengthens o (cs.foldl step o) ∧ P (cs.foldl step o).text := by
  induction cs generalizing o with
  | nil => exact ⟨(SameEdits.refl o).lengthens, ho⟩
  | cons c cs ih =>
    obtain ⟨first, kept⟩ := h o c List.mem_cons_self ho
    obtain ⟨rest, last⟩ := ih (fun o d hd => h o d (List.mem_cons_of_mem c hd)) kept
    exact ⟨first.trans rest, last⟩

/-- A change whose index cannot be commented out leaves the text alone, or comments out its
field. -/
theorem removeStep_cases_of_remains (roots : List Text)
    (h : ∀ n, lost? c = some (.index n) → Remains markers o.text (.index n)) :
    SameEdits o (removeStep markers roots o c) ∧ (∀ n, lost? c = some (.field n) →
        Path.isTopLevel n = true → Stays markers.removed o.text n) ∨
      ∃ n t', lost? c = some (.field n) ∧ removeField o.text n markers.removed = .ok t' ∧
        removeStep markers roots o c = o.removing t' (.field n) := by
  by_cases found : ∃ n t', lost? c = some (.field n) ∧ Path.isTopLevel n = true ∧
      removeField o.text n markers.removed = .ok t'
  · obtain ⟨n, t', hlost, htop, hr⟩ := found
    refine .inr ⟨n, t', hlost, hr, ?_⟩
    rw [removeStep_eq_takeField hlost, takeField, if_pos htop, hr]
    rfl
  · have stays : ∀ n, lost? c = some (.field n) → Path.isTopLevel n = true →
        Stays markers.removed o.text n := fun n hlost htop t' hr => found ⟨n, t', hlost, htop, hr⟩
    refine .inl ⟨sameEdits_removeStep roots fun p hlost htop => ?_, stays⟩
    cases p with
    | field n => exact stays n hlost htop
    | index n => exact h n hlost

theorem lengthens_removeStep (roots : List Text)
    (h : ∀ n, lost? c = some (.index n) → Remains markers o.text (.index n)) :
    Lengthens o (removeStep markers roots o c) := by
  rcases removeStep_cases_of_remains roots h with ⟨same, -⟩ | ⟨n, t', -, hr, step⟩
  · exact same.lengthens
  · have adds : Relation.TransGen (Adds markers default) o.text t' :=
      adds_removeField (.inr rfl) hr
    rw [step]
    refine ⟨rfl, rfl, .inr ⟨length_lt_of_transGen adds, ?_⟩⟩
    simp only [Outcome.removing, List.length_append, List.length_singleton]
    omega

/-- Of the fields that only the code has, none can be commented out once all were tried. -/
theorem stays_foldl_removeStep (roots : List Text) (h : Listed o.text pre parts post close)
    (ha : Alternate false parts) (hd : Distinct (elementsOf parts)) (hm : '\n' ∉ markers.removed)
    (hc : ∀ c ∈ cs, c.kind ≠ .indexRemoved) :
    (∀ n, Stays markers.removed o.text n →
        Stays markers.removed (cs.foldl (removeStep markers roots) o).text n) ∧
      ∀ c ∈ cs, ∀ n, lost? c = some (.field n) → Path.isTopLevel n = true →
        Stays markers.removed (cs.foldl (removeStep markers roots) o).text n := by
  induction cs generalizing o parts with
  | nil => exact ⟨fun _ => id, nofun⟩
  | cons c cs ih =>
    obtain ⟨hkind, hrest⟩ := List.forall_mem_cons.mp hc
    rw [List.foldl_cons]
    rcases removeStep_cases_of_remains roots fun n hn =>
        absurd (lost?_eq_index_iff.mp hn).1 hkind with
      ⟨same, hstays⟩ | ⟨n, t', hlost, hr, step⟩
    · obtain ⟨later, others⟩ :=
        ih (o := removeStep markers roots o c) (by rwa [same.text]) ha hd hrest
      rw [same.text] at later
      refine ⟨later, List.forall_mem_cons.mpr ⟨fun n hn htop => later n (hstays n hn htop), others⟩⟩
    · obtain ⟨parts', listed, alternate, helements⟩ := h.removeField ha hm hr
      have distinct : Distinct (elementsOf parts') := by
        rw [helements]
        exact hd.sublist List.eraseP_sublist
      have after : (removeStep markers roots o c).text = t' := by rw [step, o.text_removing]
      obtain ⟨later, others⟩ := ih (o := removeStep markers roots o c) (by rwa [after]) alternate
        distinct hrest
      rw [after] at later
      refine ⟨fun m hs => later m (hs.removeField h ha hm hr), List.forall_mem_cons.mpr
        ⟨fun m hn _ => later m ?_, others⟩⟩
      obtain rfl := Part.field.inj (Option.some.inj (hlost.symm.trans hn))
      exact stays_of_removeField h ha hd hm hr

theorem lengthens_putField (markers : Markers) (roots : List Text) (database : Table) (o : Outcome)
    (f : Field) : Lengthens o (putField markers roots database o f) := by
  unfold putField
  split
  · split
    · rename_i t' ht
      refine ⟨rfl, rfl, .inr ⟨length_lt_of_insertField ht, ?_⟩⟩
      simp only [List.length_append, List.length_singleton]
      omega
    · exact ⟨rfl, rfl, .inl ⟨rfl, rfl, rfl⟩⟩
  · exact (sameEdits_passOver roots o f.name).lengthens

theorem lengthens_addStep (roots : List Text) (hc : c ∈ database.compare code .pull)
    (h : ∀ i, gained? c = some (.index i.name) → database.index? i.name = some i →
      i.isDetectionOnly = false →
        ∀ t' listed, insertIndex o.text i markers.added ≠ .ok (t', listed)) :
    Lengthens o (addStep markers roots database o c) := by
  cases hgained : gained? c with
  | none =>
    rcases addStep_of_gained_none hgained o with step | step
    · rw [step]
      exact (SameEdits.refl o).lengthens
    · rw [step]
      exact ⟨rfl, rfl, .inl ⟨rfl, rfl, rfl⟩⟩
  | some p =>
    have declared := (of_gained? hc hgained).1
    cases p with
    | field name =>
      obtain ⟨f, -, step⟩ := exists_addStep_eq_putField hgained declared
      rw [step]
      exact lengthens_putField markers roots database o f
    | index name =>
      obtain ⟨i, hi, step⟩ := exists_addStep_eq_putIndex hgained declared
      obtain ⟨-, rfl⟩ := find?_key_eq_some hi
      rw [step]
      exact (sameEdits_putIndex (h i hgained hi)).lengthens

/-! ## The fields that are added -/

/-- The field of the table itself that a change finds in the database alone. -/
def gainedRoot? (c : Change) : Option Text :=
  match gained? c with
  | some (.field name) => if Path.isTopLevel name then some name else none
  | _ => none

/-- Which field a step adds does not depend on what stands in the list of fields. -/
theorem addedFields_addStep_eq {roots : List Text} (hlist : (fieldsList? o.text).isSome = true)
    (hc : c ∈ database.compare code .pull) :
    (addStep markers roots database o c).addedFields = o.addedFields ++ (gainedRoot? c).toList := by
  rw [gainedRoot?]
  cases hgained : gained? c with
  | none =>
    rw [Option.toList_none, List.append_nil]
    rcases addStep_of_gained_none hgained o with step | step
    · rw [step]
    · rw [step]
      rfl
  | some p =>
    have declared := (of_gained? hc hgained).1
    cases p with
    | field name =>
      obtain ⟨f, hf, step⟩ := exists_addStep_eq_putField hgained declared
      obtain ⟨-, rfl⟩ := find?_key_eq_some hf
      rw [step, putField]
      dsimp only
      split
      · obtain ⟨t', ht⟩ := exists_insertField hlist database f markers.added
        rw [ht]
        rfl
      · rw [(sameEdits_passOver roots o f.name).addedFields]
        simp
    | index name =>
      obtain ⟨i, -, step⟩ := exists_addStep_eq_putIndex hgained declared
      rw [step, putIndex]
      dsimp only
      rw [Option.toList_none, List.append_nil]
      split
      · rfl
      · split
        · split <;> rfl
        · rfl

/-- The fields that are added one after another, as long as the text has a list of fields. -/
theorem addedFields_foldl_addStep {roots : List Text} {P : Text → Prop}
    (hlist : ∀ t, P t → (fieldsList? t).isSome = true)
    (hstep : ∀ o c, c ∈ cs → P o.text → P (addStep markers roots database o c).text)
    (hc : ∀ c ∈ cs, c ∈ database.compare code .pull) (ho : P o.text) :
    (cs.foldl (addStep markers roots database) o).addedFields =
      o.addedFields ++ cs.filterMap gainedRoot? := by
  induction cs generalizing o with
  | nil => simp
  | cons c cs ih =>
    obtain ⟨hmem, hrest⟩ := List.forall_mem_cons.mp hc
    rw [List.foldl_cons, ih (fun o d hd => hstep o d (List.mem_cons_of_mem c hd)) hrest
      (hstep o c List.mem_cons_self ho), addedFields_addStep_eq (hlist _ ho) hmem,
      List.filterMap_cons]
    cases gainedRoot? c <;> simp

theorem addedFields_merge_eq {P : Text → Prop} (hlist : ∀ t, P t → (fieldsList? t).isSome = true)
    (hstep : ∀ (roots : List Text) (o : Outcome) (c : Change), c ∈ database.compare code .pull →
      P o.text → P (addStep markers roots database o c).text)
    (ht : P (afterRemovals markers t database code).text) :
    (merge markers t database code).addedFields =
      (database.compare code .pull).filterMap gainedRoot? := by
  have additions := addedFields_foldl_addStep hlist
    (hstep (roots .fieldAdded (database.compare code .pull))) (fun c hc => hc) ht
  rw [added_afterRemovals.1, List.nil_append] at additions
  exact additions

/-! ## Merges -/

/-- Whether a merge behind another one adds the same fields as that and nothing else, and changes
the text just if there are such fields or others that it comments out. -/
structure Again (o o' : Outcome) : Prop where
  addedFields : o'.addedFields = o.addedFields
  addedIndexes : o'.addedIndexes = []
  removedIndexes : o'.removedIndexes = []
  text : o'.text = o.text ↔ o.addedFields = [] ∧ o'.removedFields = []

theorem again_of_lengthens (hremovals : Lengthens { text := o.text }
      (afterRemovals markers o.text database code))
    (hadditions : Lengthens (afterRemovals markers o.text database code)
      (afterAdditions markers o.text database code))
    (hfields : (merge markers o.text database code).addedFields = o.addedFields) :
    Again o (merge markers o.text database code) := by
  have both := hremovals.trans hadditions
  refine ⟨hfields, both.addedIndexes, both.removedIndexes, ?_⟩
  rw [← hfields]
  exact both.text_eq_iff

theorem lengthens_afterRemovals (hi : ∀ i, i ∈ database.indexes ↔ i ∈ code.indexes) :
    Lengthens { text := t } (afterRemovals markers t database code) :=
  (lengthens_foldl (P := fun _ => True) (fun _ _ hc _ => ⟨lengthens_removeStep _ fun _ hn =>
    absurd (lost?_eq_index_iff.mp hn).1 (kind_ne_of_indexes hi hc).1, trivial⟩) trivial).1

theorem lengthens_afterAdditions (hi : ∀ i, i ∈ database.indexes ↔ i ∈ code.indexes) :
    Lengthens (afterRemovals markers t database code) (afterAdditions markers t database code) :=
  (lengthens_foldl (P := fun _ => True) (fun _ _ hc _ => ⟨lengthens_addStep _ hc fun _ hn =>
    absurd (gained?_eq_index_iff.mp hn).1 (kind_ne_of_indexes hi hc).2, trivial⟩) trivial).1

/-! ## Files with an inventory -/

/-- Whether a text has an inventory with the functions of this one. -/
def Keeps (v : Inventory) (t : Text) : Prop := ∃ w, Holds t w ∧ w.functions = v.functions

theorem Keeps.remains (h : Keeps v t) (hn : ¬ v.Has (.index name)) (markers : Markers) :
    Remains markers t (.index name) := by
  obtain ⟨w, hw, hfunctions⟩ := h
  refine hw.remains (fun hhas => hn ?_) markers
  rwa [Inventory.Has, hfunctions] at hhas

theorem Keeps.insertIndex_ne_ok {i : Index} (h : Keeps v t) (hsettled : Settled database v c)
    (hi : gained? c = some (.index i.name)) (hfound : database.index? i.name = some i)
    (hmanaged : i.isDetectionOnly = false) (marker t' : Text) (listed : Bool) :
    insertIndex t i marker ≠ .ok (t', listed) := by
  obtain ⟨w, hw, hfunctions⟩ := h
  rcases hsettled.congr hfunctions i.name hi with hhas | ⟨j, hj, hd⟩
  · exact hw.insertIndex_ne_ok hhas marker t' listed
  · rw [← Option.some.inj (hfound.symm.trans hj), hmanaged] at hd
    cases hd

/-- A removal keeps the functions, unless it finds that of its index. -/
theorem Keeps.removeStep (h : Keeps v o.text) (hm : '\n' ∉ markers.removed) (roots : List Text)
    (hc : ∀ n, lost? c = some (.index n) → ¬ v.Has (.index n)) :
    Keeps v (removeStep markers roots o c).text := by
  obtain ⟨w, hw, hfunctions⟩ := h
  rcases hw.removeStep_cases hm roots c with ⟨p, t', hp, step, h'⟩ | ⟨same, -⟩
  · rw [step, o.text_removing]
    refine ⟨w.lose p, h', ?_⟩
    rw [← hfunctions]
    cases p with
    | field n => rfl
    | index n =>
      have absent := hc n hp
      rw [Inventory.Has, ← hfunctions] at absent
      exact List.eraseP_of_forall_not fun f hf => by simpa using ne_of_mem_of_not_mem hf absent
  · exact ⟨w, same.text ▸ hw, hfunctions⟩

/-- An addition keeps the functions, unless it inserts its index. -/
theorem Keeps.addStep (h : Keeps v o.text) (hm : '\n' ∉ markers.added) (roots : List Text)
    (hc : c ∈ database.compare code .pull) (hsettled : Settled database v c) :
    Keeps v (addStep markers roots database o c).text := by
  obtain ⟨w, hw, hfunctions⟩ := h
  rcases hw.addStep_cases hm hc roots with ⟨p, t', -, hnew, step, h'⟩ | ⟨same, -⟩
  · rw [step, o.text_adding]
    refine ⟨w.gain p, h', ?_⟩
    cases p with
    | field n => exact hfunctions
    | index n => exact absurd (hsettled.congr hfunctions) (hnew n rfl)
  · exact ⟨w, same.text ▸ hw, hfunctions⟩

theorem Holds.addedFields_merge (h : Holds t v) (hadded : '\n' ∉ markers.added)
    (hremoved : '\n' ∉ markers.removed) : (merge markers t database code).addedFields =
      (database.compare code .pull).filterMap gainedRoot? := by
  refine addedFields_merge_eq (P := fun t => ∃ w, Holds t w) ?_ ?_
    ⟨_, (h.afterRemovals hremoved database code).1⟩
  · rintro t ⟨w, hw⟩
    exact hw.isSome_fieldsList?
  · rintro roots o c hc ⟨w, hw⟩
    rcases hw.addStep_cases hadded hc roots with ⟨p, t', -, -, step, h'⟩ | ⟨same, -⟩
    · exact ⟨w.gain p, by rwa [step, o.text_adding]⟩
    · exact ⟨w, same.text ▸ hw⟩

section Tables

variable (hadded : '\n' ∉ markers.added) (hremoved : '\n' ∉ markers.removed)
include hadded hremoved

/-- Of the fields that only the code has, none has an entry behind the merge, if it was there
once and the merge adds no fields. -/
theorem Holds.not_has_field (h : Holds t v) (hdistinct : Distinct (entryTexts t))
    (hnone : (merge markers t database code).addedFields = [])
    (hc : c ∈ database.compare code .pull) (hlost : lost? c = some (.field name))
    (htop : Path.isTopLevel name = true) :
    ¬ ((merge markers t database code).total v).Has (.field name) := by
  obtain ⟨-, gone, -⟩ := h.merged hadded hremoved database code
  rw [Distinct, h.filterMap_entryTexts] at hdistinct
  rintro ⟨n, hn, hname⟩
  rw [Outcome.total, hnone, List.map_nil, List.append_nil] at hn
  exact gone c hc _ hlost htop (Inventory.once_field hdistinct name) ⟨n, hn, hname⟩

variable (hnodup : v.functions.Nodup) (hapart : ∀ i ∈ code.indexes, ∀ j ∈ database.indexes,
  Source.functionOf i.name = Source.functionOf j.name → i.name = j.name)
include hnodup hapart

/-- Of the indexes that only the code has, none has a function behind the merge. -/
theorem Holds.not_has_index (h : Holds t v) (hc : c ∈ database.compare code .pull)
    (hlost : lost? c = some (.index name)) :
    ¬ ((merge markers t database code).total v).Has (.index name) := by
  obtain ⟨-, gone, -, new⟩ := h.merged hadded hremoved database code
  obtain ⟨⟨i, hi, rfl⟩, unheld⟩ := of_lost? hc hlost
  intro hhas
  rcases List.mem_append.mp hhas with hold | hnew
  · exact gone c hc _ hlost rfl (Inventory.once_index hnodup i.name) hold
  · obtain ⟨m, hm, he⟩ := List.mem_map.mp hnew
    obtain ⟨d, hd, hgained⟩ := new m hm
    obtain ⟨⟨j, hj, rfl⟩, -⟩ := of_gained? hd hgained
    have held : (Part.index i.name).DeclaredIn database := ⟨j, hj, (hapart i hi j hj he.symm).symm⟩
    rw [held.heldBy] at unheld
    cases unheld

/-- A file with an inventory, before merges and between them. -/
theorem again_of_holds (h : Holds t v) :
    Again (merge markers t database code)
      (merge markers (merge markers t database code).text database code) := by
  obtain ⟨holds, -, settled, -⟩ := h.merged hadded hremoved database code
  have gone {c : Change} (hc : c ∈ database.compare code .pull) (n : Text)
      (hlost : lost? c = some (.index n)) :
      ¬ ((merge markers t database code).total v).Has (.index n) :=
    h.not_has_index hadded hremoved hnodup hapart hc hlost
  obtain ⟨removals, kept⟩ := lengthens_foldl
    (P := Keeps ((merge markers t database code).total v))
    (o := { text := (merge markers t database code).text })
    (fun o c hc kept => ⟨lengthens_removeStep
      (roots .fieldRemoved (database.compare code .pull)) fun n hn => kept.remains (gone hc n hn) _,
      kept.removeStep hremoved _ (gone hc)⟩) ⟨_, holds, rfl⟩
  obtain ⟨additions, -⟩ := lengthens_foldl
    (fun o c hc kept => ⟨lengthens_addStep (roots .fieldAdded (database.compare code .pull)) hc
      fun i hi hfound hmanaged => kept.insertIndex_ne_ok (settled c hc) hi hfound hmanaged _,
      kept.addStep hadded _ hc (settled c hc)⟩) kept
  refine again_of_lengthens removals additions ?_
  rw [holds.addedFields_merge hadded hremoved, h.addedFields_merge hadded hremoved]

/-- Where no field is listed twice and the first merge adds none, the second one comments out
none. -/
theorem removedFields_of_holds (h : Holds t v) (hdistinct : Distinct (entryTexts t))
    (hnone : (merge markers t database code).addedFields = []) :
    (merge markers (merge markers t database code).text database code).removedFields = [] := by
  obtain ⟨holds, -⟩ := h.merged hadded hremoved database code
  refine removed_merge_eq.1.trans (sameEdits_foldl_removeStep _ fun p hp htop => ?_).removedFields
  obtain ⟨c, hc, hlost⟩ := List.mem_filterMap.mp hp
  refine holds.remains ?_ markers
  cases p with
  | field n => exact h.not_has_field hadded hremoved hdistinct hnone hc hlost htop
  | index n => exact h.not_has_index hadded hremoved hnodup hapart hc hlost

end Tables

/-- A file that declares what the code does, before merges and between them. -/
theorem again_of_matches (hmatches : Matches names t code) (hapart : Apart names)
    (hadded : '\n' ∉ markers.added) (hremoved : '\n' ∉ markers.removed) (hcode : Mergeable code)
    (hdatabase : Mergeable database) (hnames : ∀ i ∈ code.indexes, names i.name)
    (hnames' : ∀ i ∈ database.indexes, names i.name) :
    Again (merge markers t database code)
        (merge markers (merge markers t database code).text database code) ∧
      (merge markers (merge markers t database code).text database code).removedFields = [] := by
  obtain ⟨⟨w, hw, -, hparts⟩, -⟩ := matches_merge hmatches hapart hadded hremoved hcode hdatabase
    hnames hnames'
  obtain ⟨v, hv, tidy, -⟩ := hmatches
  refine ⟨again_of_holds hadded hremoved tidy.functions
      (fun i hi j hj => hapart _ _ (hnames i hi) (hnames' j hj)) hv,
    removed_merge_eq.1.trans (sameEdits_foldl_removeStep _ fun p hp htop => ?_).removedFields⟩
  -- What the first merge took out is gone.
  obtain ⟨c, hc, hlost⟩ := List.mem_filterMap.mp hp
  obtain ⟨declared, unheld⟩ := of_lost? hc hlost
  have known := known_of_declaredIn hnames declared htop
  refine hw.remains (fun hhas => ?_) markers
  rw [((hparts p known).mp hhas).heldBy] at unheld
  cases unheld

theorem listed_addStep {roots : List Text} (hm : '\n' ∉ markers.added) (hc : c.kind ≠ .indexAdded) :
    (∃ parts, Listed o.text pre parts post close ∧ Alternate false parts) →
      ∃ parts, Listed (addStep markers roots database o c).text pre parts post close ∧
        Alternate false parts := by
  rintro ⟨parts, h, ha⟩
  rcases addStep_cases markers roots database o hc with ⟨htext, -⟩ | ⟨f, t', hf, hfield, step⟩
  · exact ⟨parts, by rwa [htext], ha⟩
  · obtain ⟨parts', -, -, h', ha', -⟩ := h.insertField ha hm (List.mem_of_find?_eq_some hf) hfield
    exact ⟨parts', by rwa [step], ha'⟩

/-- A file written by hand, when the indexes are the same. -/
theorem again_of_groups (hadded : '\n' ∉ markers.added) (hremoved : '\n' ∉ markers.removed)
    (hquotes : NoLooseQuote (pieces 0 none t))
    (hgroups : ∀ opening closing, fieldsList? t = some (opening, closing) →
      ∀ e ∈ entries t opening closing, IsGroup t e)
    (hi : ∀ i, i ∈ database.indexes ↔ i ∈ code.indexes) :
    Again (merge markers t database code)
      (merge markers (merge markers t database code).text database code) := by
  have kinds {c : Change} (hc : c ∈ database.compare code .pull) := kind_ne_of_indexes hi hc
  refine again_of_lengthens (lengthens_afterRemovals hi) (lengthens_afterAdditions hi) ?_
  cases hlist : fieldsList? t with
  | none =>
    have first : SameFields { text := t } (merge markers t database code) :=
      sameFields_merge hlist hi
    rw [first.1, first.2.2]
  | some brackets =>
    obtain ⟨opening, closing⟩ := brackets
    obtain ⟨pre, parts, post, close, listed, alternate⟩ :=
      exists_listed hlist (hgroups opening closing hlist) hquotes
    obtain ⟨parts', -, listed', alternate', -⟩ :=
      exists_listed_merge hadded hremoved hi listed alternate
    have fields {t : Text} {parts : List Code.Part} (h : Listed t pre parts post close)
        (ha : Alternate false parts) : (merge markers t database code).addedFields =
          (database.compare code .pull).filterMap gainedRoot? := by
      refine addedFields_merge_eq (P := fun t => ∃ parts, Listed t pre parts post close ∧
        Alternate false parts) ?_ (fun roots o c hc => listed_addStep hadded (kinds hc).2) ?_
      · rintro t ⟨parts, h, -⟩
        rw [h.framed.fieldsList?_eq]
        rfl
      · obtain ⟨parts₁, -, h₁, ha₁, -⟩ := listed_foldl_removeStep (o := { text := t })
          (roots .fieldRemoved (database.compare code .pull)) h ha hremoved fun c hc => (kinds hc).1
        exact ⟨parts₁, h₁, ha₁⟩
    rw [fields listed' alternate', fields listed alternate]

/-- Where no field is listed twice and the first merge adds none, the second one comments out
none. -/
theorem removedFields_merge_merge (hremoved : '\n' ∉ markers.removed)
    (hquotes : NoLooseQuote (pieces 0 none t))
    (hgroups : ∀ opening closing, fieldsList? t = some (opening, closing) →
      ∀ e ∈ entries t opening closing, IsGroup t e)
    (hi : ∀ i, i ∈ database.indexes ↔ i ∈ code.indexes) (hdistinct : Distinct (entryTexts t))
    (hnone : (merge markers t database code).addedFields = []) :
    (merge markers (merge markers t database code).text database code).removedFields = [] := by
  have kinds {c : Change} (hc : c ∈ database.compare code .pull) := kind_ne_of_indexes hi hc
  -- The first merge leaves what its removals left.
  have same : (merge markers t database code).text = (afterRemovals markers t database code).text :=
    (lengthens_afterAdditions hi).text_eq_iff.mpr
      ⟨hnone.trans added_afterRemovals.1.symm, removed_merge_eq.1⟩
  refine removed_merge_eq.1.trans (sameEdits_foldl_removeStep _ fun p hp htop =>
    ?_).removedFields
  obtain ⟨c, hc, hlost⟩ := List.mem_filterMap.mp hp
  cases p with
  | index name => exact absurd (lost?_eq_index_iff.mp hlost).1 (kinds hc).1
  | field name =>
    change Stays markers.removed (merge markers t database code).text name
    rw [same]
    cases hlist : fieldsList? t with
    | none =>
      have first : SameFields { text := t } (merge markers t database code) :=
        sameFields_merge hlist hi
      intro t' hr
      rw [← same, first.1, removeField, hlist] at hr
      cases hr
    | some brackets =>
      obtain ⟨opening, closing⟩ := brackets
      obtain ⟨pre, parts, post, close, listed, alternate⟩ :=
        exists_listed hlist (hgroups opening closing hlist) hquotes
      rw [listed.entryTexts_eq alternate] at hdistinct
      exact (stays_foldl_removeStep (o := { text := t }) _ listed alternate hdistinct hremoved
        fun c hc => (kinds hc).1).2 c hc name hlost htop

/-- A merge behind another one of the same tables adds the same fields as that once more. It adds
and comments out nothing else, and so leaves the text as it is if there are no such fields. This
holds of files that declare what the code does, whatever is merged into them. It also holds of texts
whose entries are groups, while the indexes are the same, and of files with an inventory that have
each function once, however their lists of definitions are written and whatever becomes of the
indexes. Where the list of fields has two entries for a field, a merge may comment out one of them
and the next merge the other. -/
theorem again_merge (hadded : '\n' ∉ markers.added) (hremoved : '\n' ∉ markers.removed) :
    (Matches names t code → Apart names → Mergeable code → Mergeable database →
      (∀ i ∈ code.indexes, names i.name) → (∀ i ∈ database.indexes, names i.name) →
        Again (merge markers t database code)
            (merge markers (merge markers t database code).text database code) ∧
          (merge markers (merge markers t database code).text database code).removedFields = []) ∧
    (NoLooseQuote (pieces 0 none t) →
      (∀ opening closing, fieldsList? t = some (opening, closing) →
        ∀ e ∈ entries t opening closing, IsGroup t e) →
      (∀ i, i ∈ database.indexes ↔ i ∈ code.indexes) →
        Again (merge markers t database code)
            (merge markers (merge markers t database code).text database code) ∧
          (Distinct (entryTexts t) → (merge markers t database code).addedFields = [] →
            (merge markers (merge markers t database code).text database code).removedFields =
              [])) ∧
    (∀ v, Holds t v → v.functions.Nodup →
      (∀ i ∈ code.indexes, ∀ j ∈ database.indexes,
        Source.functionOf i.name = Source.functionOf j.name → i.name = j.name) →
        Again (merge markers t database code)
            (merge markers (merge markers t database code).text database code) ∧
          (Distinct (entryTexts t) → (merge markers t database code).addedFields = [] →
            (merge markers (merge markers t database code).text database code).removedFields =
              [])) :=
  ⟨fun hmatches hapart hcode hdatabase hnames hnames' =>
      again_of_matches hmatches hapart hadded hremoved hcode hdatabase hnames hnames',
    fun hquotes hgroups hi => ⟨again_of_groups hadded hremoved hquotes hgroups hi,
      removedFields_merge_merge hremoved hquotes hgroups hi⟩,
    fun _ h hnodup hapart => ⟨again_of_holds hadded hremoved hnodup hapart h,
      removedFields_of_holds hadded hremoved hnodup hapart h⟩⟩

/-- The table of the edited text without its second field. -/
def shortTable : Table := { name := "t", fields := [{ name := "a", type := "string" }] }

/-- Fields that the code has as well are not added. -/
theorem addedFields_merge_eq_nil (h : ∀ f ∈ database.fields, (Part.field f.name).DeclaredIn code)
    (markers : Markers) (t : Text) : (merge markers t database code).addedFields = [] := by
  refine List.eq_nil_iff_forall_not_mem.mpr fun name hadded => ?_
  obtain ⟨-, c, hc, hgained⟩ := mem_addedFields_merge hadded
  obtain ⟨⟨f, hf, rfl⟩, unheld⟩ := of_gained? hc hgained
  rw [(h f hf).heldBy] at unheld
  cases unheld

/-- Posts lose a field and exchange an index, a text written by hand loses a field, and a file whose
list of definitions was written by hand exchanges its indexes. -/
theorem again_merge_posts :
    (Again (merge {} (Source.file (posts ["title", "tags"] ["by title"])) (posts ["tags"] ["model"])
          (posts ["title", "tags"] ["by title"]))
        (merge {} (merge {} (Source.file (posts ["title", "tags"] ["by title"]))
          (posts ["tags"] ["model"]) (posts ["title", "tags"] ["by title"])).text
            (posts ["tags"] ["model"]) (posts ["title", "tags"] ["by title"])) ∧
      (merge {} (merge {} (Source.file (posts ["title", "tags"] ["by title"]))
        (posts ["tags"] ["model"]) (posts ["title", "tags"] ["by title"])).text
          (posts ["tags"] ["model"]) (posts ["title", "tags"] ["by title"])).removedFields = []) ∧
    (Again (merge {} editedText shortTable (editedTable "b"))
        (merge {} (merge {} editedText shortTable (editedTable "b")).text shortTable
          (editedTable "b")) ∧
      (merge {} (merge {} editedText shortTable (editedTable "b")).text shortTable
        (editedTable "b")).removedFields = []) ∧
    Again (merge {} handWritten.text (posts [] ["c"]) (posts [] ["a", "b"]))
        (merge {} (merge {} handWritten.text (posts [] ["c"]) (posts [] ["a", "b"])).text
          (posts [] ["c"]) (posts [] ["a", "b"])) ∧
      (merge {} (merge {} handWritten.text (posts [] ["c"]) (posts [] ["a", "b"])).text
        (posts [] ["c"]) (posts [] ["a", "b"])).removedFields = [] := by
  refine ⟨?_, ?_, ?_⟩
  · have tables : ∀ t ∈ [posts ["title", "tags"] ["by title"], posts ["tags"] ["model"]],
        Mergeable t := by decide +kernel
    have apart :
        Apart (IndexOf [posts ["title", "tags"] ["by title"], posts ["tags"] ["model"]]) := by
      decide
    have used {t : Table}
        (ht : t ∈ [posts ["title", "tags"] ["by title"], posts ["tags"] ["model"]]) :
        ∀ i ∈ t.indexes, IndexOf [posts ["title", "tags"] ["by title"], posts ["tags"] ["model"]]
          i.name := fun i hi => ⟨t, ht, i, hi, rfl⟩
    exact (again_merge (by decide) (by decide)).1
      (matches_file (tables _ (by simp)) apart (used (by simp))) apart (tables _ (by simp))
        (tables _ (by simp)) (used (by simp)) (used (by simp))
  · have groups : ∀ opening closing, fieldsList? editedText = some (opening, closing) →
        ∀ e ∈ entries editedText opening closing, IsGroup editedText e := by
      intro opening closing h
      have list : fieldsList? editedText = some (18, 60) := by decide +kernel
      obtain ⟨rfl, rfl⟩ := Prod.mk.inj (Option.some.inj (list.symm.trans h))
      decide +kernel
    have distinct : Distinct (entryTexts editedText) := by
      unfold Distinct
      decide +kernel
    have held : ∀ f ∈ shortTable.fields, (Part.field f.name).DeclaredIn (editedTable "b") := by
      simpa [shortTable] using ⟨_, List.mem_cons_self, rfl⟩
    obtain ⟨again, removed⟩ :=
      (@again_merge (fun _ => False) {} shortTable (editedTable "b") editedText
        (by decide) (by decide)).2.1 (by decide +kernel) groups fun _ => Iff.rfl
    exact ⟨again, removed distinct (addedFields_merge_eq_nil held {} editedText)⟩
  · have distinct : Distinct (entryTexts handWritten.text) := by
      rw [Distinct, handWritten.holds.filterMap_entryTexts]
      exact List.nodup_nil
    obtain ⟨again, removed⟩ :=
      (@again_merge (fun _ => False) {} (posts [] ["c"]) (posts [] ["a", "b"]) handWritten.text
        (by decide) (by decide)).2.2 _ handWritten.holds (by decide +kernel) (by decide +kernel)
    exact ⟨again, removed distinct (addedFields_merge_eq_nil
      (List.forall_mem_nil _) {} handWritten.text)⟩

/-- The file of a table without fields gains one again by each merge. -/
theorem not_text_merge_merge :
    ¬∀ (markers : Markers) (text : Text) (database code : Table),
      (merge markers (merge markers text database code).text database code).text =
        (merge markers text database code).text := by
  intro h
  have apart : Apart fun _ => False := fun _ _ h => h.elim
  have tables : Mergeable bare ∧ Mergeable loose := by decide +kernel
  have added : '\n' ∉ Markers.added {} := by decide
  have removed : '\n' ∉ Markers.removed {} := by decide
  have again := again_of_matches (matches_file tables.1 apart nofun) apart added removed tables.1
    tables.2 nofun nofun
  obtain ⟨text, hmerge⟩ := merge_loose
  have none := (again.1.text.mp (h {} (Source.file bare) loose bare)).1
  rw [hmerge] at none
  cases none

end SchemaDrift.Merge
