import SchemaDrift.Proofs.Merge.Inventory

namespace SchemaDrift.Merge

open Code

/-!
# Removed indexes that are still called

A merge comments out the function of a removed index and takes the first call of it off the list of
definitions. It does not look for other calls, and says nothing of the index where one is left.
-/

variable {markers : Markers} {text t t' function name : Text} {database code : Table}
  {o o' o'' : Outcome} {c : Change} {cs : List Change} {p : Part} {q : Option Part} {rs : List Text}

/-! ## Calls in the list -/

/-- The call of a function, in front of which no name ends. -/
def callPattern (function : Text) : Pattern := fun before t =>
  if before.any Text.isWord then none else Text.stripStart (callOf function) t

/-- Whether a text calls a function, outside of literals and comments. -/
def Calls (function t : Text) : Prop := (find? (callPattern function) t 0).isSome = true

instance (function t : Text) : Decidable (Calls function t) := inferInstanceAs (Decidable (_ = _))

/-- Whether an element of the list of definitions calls the function. -/
def IsLive (function t : Text) : Prop := ∃ x ∈ definitionTexts t, Calls function x

instance (function t : Text) : Decidable (IsLive function t) :=
  inferInstanceAs (Decidable (∃ x ∈ definitionTexts t, Calls function x))

theorem unlistDefinition_eq_self (h : ∀ x ∈ definitionTexts t, ¬ callOf function <+: x)
    (marker : Text) : unlistDefinition t function marker = t := by
  cases hlist : listIn? t Source.aggregate with
  | none => rw [unlistDefinition, hlist]
  | some place =>
    obtain ⟨pre, body, post, close, hbody⟩ := exists_inBody hlist
    obtain ⟨lead, ss, rfl, hlead, hcells⟩ := hbody.exists_cells
    rw [definitionTexts_of_cells hbody hlead hcells] at h
    exact unlistDefinition_of_absent hbody hlead hcells fun s hs => h _ (List.mem_map_of_mem hs)

/-! ## Steps -/

/-- What a removal makes of an outcome, for the declaration that its change finds in the code
alone. -/
inductive Removes (markers : Markers) (o : Outcome) : Option Part → Outcome → Prop
  | idle {p : Option Part} (h : ∀ name, p ≠ some (.index name)) : Removes markers o p o
  | skip {p : Part} (obstacle : Obstacle) : Removes markers o (some p) (o.skip p obstacle)
  | field {name t : Text} (h : removeField o.text name markers.removed = .ok t) :
      Removes markers o (some (.field name))
        { o with text := t, removedFields := o.removedFields ++ [name] }
  | index {name t : Text} (h : removeIndex o.text name markers.removed = .ok t) :
      Removes markers o (some (.index name))
        { o with text := t, removedIndexes := o.removedIndexes ++ [name] }

theorem removes_passOver (markers : Markers) (rs : List Text) (o : Outcome) (name : Text) :
    Removes markers o (some (.field name)) (passOver rs o name) := by
  unfold passOver
  split
  · exact .idle nofun
  · exact .skip .nested

theorem removes_removeStep (markers : Markers) (rs : List Text) (o : Outcome) (c : Change) :
    Removes markers o (lost? c) (removeStep markers rs o c) := by
  cases hlost : lost? c with
  | none =>
    rw [removeStep_of_lost_none hlost]
    exact .idle nofun
  | some p =>
    cases p with
    | field name =>
      rw [removeStep_eq_takeField hlost, takeField]
      split
      · split
        · exact .field ‹_›
        · exact .skip _
      · exact removes_passOver markers rs o name
    | index name =>
      rw [removeStep_eq_takeIndex hlost, takeIndex]
      split
      · exact .index ‹_›
      · exact .skip _

/-- What an addition makes of an outcome. -/
inductive Puts (o : Outcome) (c : Change) : Outcome → Prop
  | idle : Puts o c o
  | skip {p : Part} (obstacle : Obstacle) (h : gained? c = some p) : Puts o c (o.skip p obstacle)
  | field (name t : Text) : Puts o c { o with text := t, addedFields := o.addedFields ++ [name] }
  | index (name t : Text) : Puts o c { o with text := t, addedIndexes := o.addedIndexes ++ [name] }
  | unlisted {name : Text} (t : Text) (h : gained? c = some (.index name)) :
      Puts o c (Outcome.remark { o with text := t, addedIndexes := o.addedIndexes ++ [name] }
        (.unlisted name))
  | changed (h : lost? c = none) : Puts o c (o.remark (.changed c))

theorem puts_putField (markers : Markers) (rs : List Text) (database : Table)
    (o : Outcome) {f : Field}
    (h : gained? c = some (.field f.name)) : Puts o c (putField markers rs database o f) := by
  unfold putField
  split
  · split
    · exact .field _ _
    · exact .skip _ h
  · unfold passOver
    split
    · exact .idle
    · exact .skip _ h

theorem puts_putIndex (markers : Markers) (o : Outcome) {i : Index}
    (h : gained? c = some (.index i.name)) : Puts o c (putIndex markers o i) := by
  unfold putIndex
  split
  · exact .skip _ h
  · split
    · rename_i t listed _
      cases listed
      · exact .unlisted _ h
      · exact .index _ _
    · exact .skip _ h

theorem puts_addStep (markers : Markers) (rs : List Text) (database : Table) (o : Outcome)
    (c : Change) : Puts o c (addStep markers rs database o c) := by
  unfold addStep
  split
  · rename_i hkind
    split
    · rename_i f hfound
      obtain ⟨name, hname, hf⟩ := Option.bind_eq_some_iff.mp hfound
      obtain ⟨-, rfl⟩ := find?_key_eq_some hf
      exact puts_putField markers rs database o (gained?_eq_field_iff.mpr ⟨hkind, hname⟩)
    · exact .idle
  · rename_i hkind
    split
    · rename_i i hfound
      obtain ⟨name, hname, hi⟩ := Option.bind_eq_some_iff.mp hfound
      obtain ⟨-, rfl⟩ := find?_key_eq_some hi
      exact puts_putIndex markers o (gained?_eq_index_iff.mpr ⟨hkind, hname⟩)
    · exact .idle
  -- The other kinds are left for review, or belong to removals.
  all_goals first
    | exact .changed (by rw [lost?, ‹c.kind = _›])
    | exact .idle

/-! ## What is told of an index -/

namespace Outcome

/-- How often an index was commented out or left alone. -/
def told (o : Outcome) (name : Text) : Nat :=
  o.removedIndexes.count name + (o.skipped.map Skip.part).count (.index name)

/-- How many edits were made. -/
def edits (o : Outcome) : Nat :=
  o.addedFields.length + o.addedIndexes.length + o.removedFields.length + o.removedIndexes.length

theorem told_skip (o : Outcome) (p : Part) (obstacle : Obstacle) (name : Text) :
    (o.skip p obstacle).told name = o.told name + if p = .index name then 1 else 0 := by
  simp [told, skip, List.count_singleton, Nat.add_assoc]

end Outcome

theorem Removes.told_eq (h : Removes markers o q o') (name : Text) :
    o'.told name = o.told name + if q = some (.index name) then 1 else 0 := by
  cases h with
  | idle hnone => simp [hnone name]
  | skip obstacle => simp [Outcome.told_skip]
  | field => simp [Outcome.told]
  | index =>
    simp only [Outcome.told, List.count_append, List.count_singleton, Option.some.injEq,
      Part.index.injEq, beq_iff_eq]
    omega

theorem told_foldl_removeStep (markers : Markers) (rs : List Text) (cs : List Change) (o : Outcome)
    (name : Text) : (cs.foldl (removeStep markers rs) o).told name =
      o.told name + cs.countP fun c => lost? c = some (.index name) := by
  induction cs generalizing o with
  | nil => rfl
  | cons c cs ih =>
    rw [List.foldl_cons, ih, (removes_removeStep markers rs o c).told_eq, List.countP_cons]
    simp only [decide_eq_true_eq]
    omega

theorem Puts.told_eq (h : Puts o c o') (hc : gained? c ≠ some (.index name)) :
    o'.told name = o.told name := by
  cases h with
  | @skip p obstacle hgained =>
    have other : p ≠ .index name := by
      rintro rfl
      exact hc hgained
    rw [Outcome.told_skip, if_neg other, Nat.add_zero]
  | _ => rfl

theorem told_foldl_addStep (markers : Markers) (rs : List Text) (database : Table) (o : Outcome)
    (h : ∀ c ∈ cs, gained? c ≠ some (.index name)) :
    (cs.foldl (addStep markers rs database) o).told name = o.told name := by
  induction cs generalizing o with
  | nil => rfl
  | cons c cs ih =>
    obtain ⟨hc, hcs⟩ := List.forall_mem_cons.mp h
    rw [List.foldl_cons, ih _ hcs, (puts_addStep markers rs database o c).told_eq hc]

theorem count_partsOf (t : Table) (name : Text) :
    (partsOf t).count (.index name) = (t.indexes.map Index.name).count name := by
  have fields : (t.fields.map fun f => Part.field f.name).count (.index name) = 0 :=
    List.count_eq_zero.mpr (by simp)
  rw [partsOf, List.count_append, fields, Nat.zero_add]
  simp [List.count, List.countP_map, Function.comp_def, beq_eq_decide]

/-- Each index of the code is lost at most once. -/
theorem countP_lost?_le (database code : Table) (name : Text) :
    (database.compare code .pull).countP (fun c => lost? c = some (.index name)) ≤
      (code.indexes.map Index.name).count name := by
  calc (database.compare code .pull).countP (fun c => lost? c = some (.index name))
    _ = ((database.compare code .pull).filterMap lost?).count (.index name) := by
      simp only [List.count_filterMap, beq_eq_decide]
    _ = (unmatched code database).count (.index name) := by rw [filterMap_compare.1]
    _ ≤ (partsOf code).count (.index name) := sublist_unmatched.count_le _
    _ = (code.indexes.map Index.name).count name := count_partsOf code name

/-! ## What is reported of an index -/

/-- The index that a remark names. -/
def Remark.index? : Remark → Option Text
  | changed c => c.index
  | unlisted index => some index
  | differs _ => none

namespace Outcome

/-- Whether an index was left alone with a reason, or is left for review. -/
def Reports (o : Outcome) (name : Text) : Prop :=
  .index name ∈ o.skipped.map Skip.part ∨ some name ∈ o.review.map Remark.index?

instance (o : Outcome) (name : Text) : Decidable (o.Reports name) :=
  inferInstanceAs (Decidable (_ ∨ _))

end Outcome

theorem Removes.review_eq (h : Removes markers o q o') : o'.review = o.review := by cases h <;> rfl

theorem Puts.mem_review (h : Puts o c o') {r : Remark} (hr : r ∈ o'.review) : r ∈ o.review ∨
    (r = .changed c ∧ lost? c = none) ∨ ∃ n, r = .unlisted n ∧ gained? c = some (.index n) := by
  cases h with
  | @unlisted n t hgained =>
    rcases List.mem_append.mp hr with hr | hr
    · exact .inl hr
    · exact .inr (.inr ⟨n, List.mem_singleton.mp hr, hgained⟩)
  | changed hlost =>
    rcases List.mem_append.mp hr with hr | hr
    · exact .inl hr
    · exact .inr (.inl ⟨List.mem_singleton.mp hr, hlost⟩)
  | _ => exact .inl hr

theorem mem_review_foldl_addStep {r : Remark}
    (hr : r ∈ (cs.foldl (addStep markers rs database) o).review) : r ∈ o.review ∨ ∃ c ∈ cs,
      (r = .changed c ∧ lost? c = none) ∨ ∃ n, r = .unlisted n ∧ gained? c = some (.index n) := by
  induction cs generalizing o with
  | nil => exact .inl hr
  | cons c cs ih =>
    rcases ih hr with hr | ⟨d, hd, hr⟩
    · exact ((puts_addStep markers rs database o c).mem_review hr).imp_right fun hr =>
        ⟨c, List.mem_cons_self, hr⟩
    · exact .inr ⟨d, List.mem_cons_of_mem c hd, hr⟩

theorem review_foldl_removeStep (markers : Markers) (rs : List Text) (cs : List Change)
    (o : Outcome) : (cs.foldl (removeStep markers rs) o).review = o.review := by
  induction cs generalizing o with
  | nil => rfl
  | cons c cs ih => rw [List.foldl_cons, ih, (removes_removeStep markers rs o c).review_eq]

/-- A change that names an index which the database does not have finds it in the code alone. -/
theorem lost?_of_index (hc : c ∈ database.compare code .pull) (hindex : c.index = some name)
    (hnone : database.index? name = none) : lost? c = some (.index name) := by
  obtain ⟨d, hd, rfl⟩ := List.mem_map.mp hc
  change d.index = some name at hindex
  rcases Change.mem_ofTables.mp hd with hd | ⟨f, -, hd⟩ | ⟨f, -, hd⟩ | ⟨i, hi, hd⟩ | ⟨i, -, hd⟩
  · rw [(Change.mem_ofKind hd).2.2.2] at hindex
    cases hindex
  · rw [(Change.mem_ofSourceField hd).2.2.2] at hindex
    cases hindex
  · rw [(Change.mem_ofTargetField hd).2.2.2] at hindex
    cases hindex
  · -- The database has the index.
    rw [(Change.mem_ofSourceIndex hd).2.2.2, Option.some.injEq] at hindex
    subst hindex
    have found := List.find?_eq_none.mp hnone i hi
    simp at found
  · exact lost?_eq_index_iff.mpr ⟨(Change.mem_ofTargetIndex hd).1, hindex⟩

/-- Nothing is reported of a removed index that the code has once. -/
theorem count_of_reports (h : name ∈ (merge markers text database code).removedIndexes)
    (hr : (merge markers text database code).Reports name) :
    1 < (code.indexes.map Index.name).count name := by
  have removed : .index name ∈ (merge markers text database code).removed := by
    simpa [Outcome.removed] using h
  obtain ⟨-, hdeclared, hheld⟩ := of_mem_removed_merge removed
  have absent : database.index? name = none := by
    simpa [Part.heldBy] using hheld
  have notGained : ∀ c ∈ database.compare code .pull, gained? c ≠ some (.index name) := by
    intro c hc hgained
    have unheld := (of_gained? hc hgained).2
    rw [hdeclared.heldBy] at unheld
    cases unheld
  have told : (merge markers text database code).told name =
      (database.compare code .pull).countP fun c => lost? c = some (.index name) :=
    (told_foldl_addStep markers _ database _ notGained).trans
      ((told_foldl_removeStep markers _ _ _ name).trans (Nat.zero_add _))
  have limit := countP_lost?_le database code name
  rw [← told, Outcome.told] at limit
  have once : 0 < (merge markers text database code).removedIndexes.count name :=
    List.count_pos_iff.mpr h
  rcases hr with hskipped | hreview
  · have again := List.count_pos_iff.mpr hskipped
    omega
  · exfalso
    obtain ⟨r, hr, hname⟩ := List.mem_map.mp hreview
    rcases List.mem_append.mp hr with hr | hr
    · rcases mem_review_foldl_addStep hr with hr | ⟨c, hc, ⟨rfl, hlost⟩ | ⟨n, rfl, hgained⟩⟩
      · rw [review_foldl_removeStep] at hr
        cases hr
      · rw [lost?_of_index hc hname absent] at hlost
        cases hlost
      · obtain rfl := Option.some.inj hname
        exact notGained c hc hgained
    · obtain ⟨d, -, rfl⟩ := List.mem_map.mp hr
      cases hname

/-! ## The text of a merge -/

/-- Whether an outcome has the edits of another one, and its text if it has no others. -/
structure Continues (o o' : Outcome) : Prop where
  edits_le : o.edits ≤ o'.edits
  text_eq : o'.edits = o.edits → o'.text = o.text

namespace Continues

theorem refl (o : Outcome) : Continues o o := ⟨Nat.le_refl _, fun _ => rfl⟩

theorem trans (h : Continues o o') (h' : Continues o' o'') : Continues o o'' := by
  refine ⟨h.edits_le.trans h'.edits_le, fun hsame => ?_⟩
  have middle : o'.edits = o.edits := Nat.le_antisymm (h'.edits_le.trans_eq hsame) h.edits_le
  rw [h'.text_eq (hsame.trans middle.symm), h.text_eq middle]

theorem of_lt (h : o.edits < o'.edits) : Continues o o' :=
  ⟨h.le, fun hsame => absurd hsame h.ne'⟩

theorem foldl {step : Outcome → Change → Outcome} (h : ∀ o c, Continues o (step o c))
    (cs : List Change) (o : Outcome) : Continues o (cs.foldl step o) :=
  List.foldlRecOn cs step (refl o) fun _ sofar c _ => sofar.trans (h _ c)

end Continues

theorem Removes.continues (h : Removes markers o q o') : Continues o o' := by
  cases h with
  | idle => exact .refl o
  | skip => exact ⟨Nat.le_refl _, fun _ => rfl⟩
  | field | index => exact .of_lt (by simp [Outcome.edits])

theorem Puts.continues (h : Puts o c o') : Continues o o' := by
  cases h with
  | idle => exact .refl o
  | skip | changed => exact ⟨Nat.le_refl _, fun _ => rfl⟩
  | field | index => exact .of_lt (by simp [Outcome.edits])
  | unlisted => exact .of_lt (by simp [Outcome.edits, Outcome.remark])

theorem continues_foldl_removeStep (markers : Markers) (rs : List Text) (cs : List Change)
    (o : Outcome) : Continues o (cs.foldl (removeStep markers rs) o) :=
  .foldl (fun o c => (removes_removeStep markers rs o c).continues) cs o

theorem continues_merge :
    Continues (afterRemovals markers text database code) (merge markers text database code) :=
  .trans (.foldl (fun o c => (puts_addStep markers _ database o c).continues) _ _)
    ⟨Nat.le_refl _, fun _ => rfl⟩

/-- An index is removed by a step of its own. -/
theorem exists_of_mem_removedIndexes
    (h : name ∈ (cs.foldl (removeStep markers rs) o).removedIndexes) :
    name ∈ o.removedIndexes ∨ ∃ front c back before t', cs = front ++ c :: back ∧
      lost? c = some (.index name) ∧ before = front.foldl (removeStep markers rs) o ∧
        removeIndex before.text name markers.removed = .ok t' ∧
          removeStep markers rs before c =
            { before with text := t', removedIndexes := before.removedIndexes ++ [name] } := by
  induction cs generalizing o with
  | nil => exact .inl h
  | cons c cs ih =>
    rcases ih h with h | ⟨front, d, back, before, t', rfl, hd, hbefore, hr⟩
    · have step := removes_removeStep markers rs o c
      generalize hlost : lost? c = q at step
      generalize hstep : removeStep markers rs o c = o' at step h
      cases step with
      | @index n t' hr =>
        rcases List.mem_append.mp h with h | h
        · exact .inl h
        · obtain rfl := List.mem_singleton.mp h
          exact .inr ⟨[], c, cs, o, t', rfl, hlost, rfl, hr, hstep⟩
      | _ => exact .inl h
    · exact .inr ⟨c :: front, d, back, before, t', rfl, hd, hbefore, hr⟩

/-- Whether a merge comes to the removal of an index with the text `t`, from which it gets `u` by
commenting out the function of the index. -/
structure RemovesFrom (markers : Markers) (text : Text) (database code : Table) (name t u : Text) :
    Prop where
  step : ∃ front c back before, database.compare code .pull = front ++ c :: back ∧
    lost? c = some (.index name) ∧
      before = front.foldl (removeStep markers (roots .fieldRemoved (database.compare code .pull)))
        { text } ∧ before.text = t ∧
          (removeStep markers (roots .fieldRemoved (database.compare code .pull)) before c).text =
            unlistDefinition u (Source.functionOf name) markers.removed
  function : ∃ start stop, functionSpan? t (Source.functionOf name) = some (start, stop) ∧
    commentOut? t start stop markers.removed = some u

/-- Nothing is reported of a removed index, unless the code has it twice. Its function is commented
out, and its first call taken off the list of definitions; a call is left live if another element
has one, or if no element starts with it. In a file with an inventory this is known of whole merges:
the elements are those of the file without the first one that starts with the call of each removed
index, and the definitions of the added ones. -/
theorem live_of_removed (h : name ∈ (merge markers text database code).removedIndexes) :
    ((merge markers text database code).Reports name →
      1 < (code.indexes.map Index.name).count name) ∧
    ∃ t u, RemovesFrom markers text database code name t u ∧
      ((∀ x ∈ definitionTexts u, ¬ callOf (Source.functionOf name) <+: x) →
        unlistDefinition u (Source.functionOf name) markers.removed = u) ∧
      (Separable u → '\n' ∉ markers.removed →
        (IsLive (Source.functionOf name)
            (unlistDefinition u (Source.functionOf name) markers.removed) ↔
          ∃ x ∈ (definitionTexts u).eraseP fun x => decide (callOf (Source.functionOf name) <+: x),
            Calls (Source.functionOf name) x)) ∧
      ((merge markers text database code).edits = 1 → t = text ∧
        (merge markers text database code).text =
          unlistDefinition u (Source.functionOf name) markers.removed) ∧
      ∀ v, Holds text v → '\n' ∉ markers.added → '\n' ∉ markers.removed →
        (IsLive (Source.functionOf name) (merge markers text database code).text ↔
          ∃ x ∈ ((merge markers text database code).total v).elements,
            Calls (Source.functionOf name) x) := by
  refine ⟨count_of_reports h, ?_⟩
  have removed : name ∈ (afterRemovals markers text database code).removedIndexes := by
    have same : (merge markers text database code).removed =
        (afterRemovals markers text database code).removed := removed_foldl_addStep _ _ _
    have mem : .index name ∈ (merge markers text database code).removed := by
      simpa [Outcome.removed] using h
    rw [same] at mem
    simpa [Outcome.removed] using mem
  obtain ⟨front, c, back, before, t', hsplit, hlost, hbefore, hr, hstep⟩ :=
    (exists_of_mem_removedIndexes removed).resolve_left List.not_mem_nil
  obtain ⟨start, stop, u, hspan, hout, rfl⟩ := removeIndex_eq_ok_iff.mp hr
  refine ⟨before.text, u, ⟨⟨front, c, back, before, hsplit, hlost, hbefore, rfl, by rw [hstep]⟩,
    start, stop, hspan, hout⟩, ?_, ?_, ?_, ?_⟩
  · intro habsent
    exact unlistDefinition_eq_self habsent markers.removed
  · intro hs hm
    rw [IsLive, definitionTexts_unlistDefinition hs hm]
  · intro honly
    have first := continues_foldl_removeStep markers
      (roots .fieldRemoved (database.compare code .pull)) front { text := text }
    rw [← hbefore] at first
    have rest :
        Continues (removeStep markers (roots .fieldRemoved (database.compare code .pull)) before
        c) (merge markers text database code) := by
      have whole : afterRemovals markers text database code =
          back.foldl (removeStep markers (roots .fieldRemoved (database.compare code .pull)))
            (removeStep markers (roots .fieldRemoved (database.compare code .pull)) before c) := by
        rw [hbefore, ← List.foldl_cons, ← List.foldl_append, ← hsplit]
        rfl
      exact (continues_foldl_removeStep markers _ back _).trans (whole ▸ continues_merge)
    have counted : (removeStep markers (roots .fieldRemoved (database.compare code .pull)) before
        c).edits = before.edits + 1 := by
      rw [hstep]
      simp [Outcome.edits, Nat.add_assoc]
    have few := rest.edits_le
    have none : ({ text } : Outcome).edits = 0 := rfl
    constructor
    · exact first.text_eq (by omega)
    · rw [rest.text_eq (by omega), hstep]
  · intro v hv hadded hremoved
    rw [IsLive, (hv.merged hadded hremoved database code).1.definitionTexts_eq]

/-! ## An index whose call is wrapped -/

def wrapped : Text := "fn a() \x7b\x7d\nfn definitions() \x7b\n    vec![m(), D(a())]\n\x7d\n"

/-- The same text with the function commented out. -/
def orphaned : Text :=
  "// R\n// fn a() \x7b\x7d\nfn definitions() \x7b\n    vec![m(), D(a())]\n\x7d\n"

def indexed : Table := { name := "t", indexes := [{ name := "a", columns := ["x"] }] }

def unindexed : Table := { name := "t" }

theorem merge_wrapped : (merge ⟨"A", "R"⟩ wrapped unindexed indexed).text = orphaned ∧
    (merge ⟨"A", "R"⟩ wrapped unindexed indexed).removedIndexes = ["a"] ∧
      (merge ⟨"A", "R"⟩ wrapped unindexed indexed).edits = 1 := by decide +kernel

theorem removedIndexes_wrapped :
    ("a" : Text) ∈ (merge ⟨"A", "R"⟩ wrapped unindexed indexed).removedIndexes := by
  rw [merge_wrapped.2.1]
  exact List.mem_singleton_self _

theorem functionOf_wrapped : Source.functionOf "a" = "a" := by decide +kernel

theorem separable_orphaned : Separable orphaned where
  quotes := by decide +kernel
  head := by
    intro start opening closing hstart hlist
    have function : function? orphaned Source.aggregate = some 18 := by decide +kernel
    have list : listIn? orphaned Source.aggregate = some (45, 57) := by decide +kernel
    obtain rfl := Option.some.inj (function.symm.trans hstart)
    obtain ⟨rfl, rfl⟩ := Prod.mk.inj (Option.some.inj (list.symm.trans hlist))
    decide +kernel
  starts := by decide +kernel
  ends := by decide +kernel

def indexedBy (names : List Text) : Table where
  name := "t"
  indexes := names.map fun name => { name, columns := ["x"] }

theorem merge_handWritten :
    (merge {} handWritten.text (indexedBy ["c"]) (indexedBy ["a", "b"])).removedIndexes =
        ["a", "b"] ∧
      (merge {} handWritten.text (indexedBy ["c"]) (indexedBy ["a", "b"])).addedIndexes =
        ["c"] := by decide +kernel

/-- A call inside another one is left live, whether the merge removes its index alone or has other
edits as well. -/
theorem live_of_removed_wrapped :
    (("a" : Text) ∈ (merge ⟨"A", "R"⟩ wrapped unindexed indexed).removedIndexes ∧
      ¬ (merge ⟨"A", "R"⟩ wrapped unindexed indexed).Reports "a" ∧
        IsLive "a" (merge ⟨"A", "R"⟩ wrapped unindexed indexed).text) ∧
    ("a" : Text) ∈
        (merge {} handWritten.text (indexedBy ["c"]) (indexedBy ["a", "b"])).removedIndexes ∧
      ¬ (merge {} handWritten.text (indexedBy ["c"]) (indexedBy ["a", "b"])).Reports "a" ∧
        IsLive "a" (merge {} handWritten.text (indexedBy ["c"]) (indexedBy ["a", "b"])).text := by
  constructor
  · obtain ⟨hreports, t, u, hfrom, -, hlive, honly, -⟩ := live_of_removed removedIndexes_wrapped
    obtain ⟨rfl, htext⟩ := honly merge_wrapped.2.2
    obtain ⟨start, stop, hspan, hout⟩ := hfrom.function
    have span : functionSpan? wrapped (Source.functionOf "a") = some (0, 9) := by decide +kernel
    obtain ⟨rfl, rfl⟩ := Prod.mk.inj (Option.some.inj (span.symm.trans hspan))
    have out : commentOut? wrapped 0 9 "R" = some orphaned := by decide +kernel
    obtain rfl := Option.some.inj (out.symm.trans hout)
    rw [functionOf_wrapped] at hlive htext
    refine ⟨removedIndexes_wrapped, fun hr => absurd (hreports hr) (by decide), ?_⟩
    rw [htext]
    exact (hlive separable_orphaned (by decide)).mpr (by decide +kernel)
  · have removed : ("a" : Text) ∈
        (merge {} handWritten.text (indexedBy ["c"]) (indexedBy ["a", "b"])).removedIndexes := by
      rw [merge_handWritten.1]
      exact List.mem_cons_self
    obtain ⟨hreports, t, u, -, -, -, -, hlive⟩ := live_of_removed removed
    have live := hlive _ handWritten.holds (by decide) (by decide)
    rw [functionOf_wrapped, Outcome.total, Outcome.remainder, merge_handWritten.1,
      merge_handWritten.2] at live
    exact ⟨removed, fun hr => absurd (hreports hr) (by decide), live.mpr (by decide +kernel)⟩

/-- A removed index whose call is live is not always reported. -/
theorem not_reports_of_live : ¬∀ (markers : Markers) (text : Text) (database code : Table)
    (name : Text), name ∈ (merge markers text database code).removedIndexes →
      ¬ IsLive (Source.functionOf name) (merge markers text database code).text ∨
        (merge markers text database code).Reports name := by
  intro h
  rcases h ⟨"A", "R"⟩ wrapped unindexed indexed "a" removedIndexes_wrapped with hlive | hreports
  · rw [functionOf_wrapped, merge_wrapped.1] at hlive
    have live : IsLive "a" orphaned := by decide +kernel
    exact hlive live
  · exact absurd (count_of_reports removedIndexes_wrapped hreports) (by decide)

end SchemaDrift.Merge
