import SchemaDrift.Proofs.Merge.Fields
import SchemaDrift.Proofs.Model.Enclosed
import SchemaDrift.Proofs.Source.Named

namespace SchemaDrift.Merge

open Code

/-!
# What a merge tells of a change

A merge tells of every change: it adds or comments out what the change names, or says why not, or
reports the change. Of a field inside another one it may tell by the field around it alone. The
builder of that has the inner field only if it encloses it, and no entry of the inner field is ever
commented out.
-/

namespace Outcome

/-- The declarations that were added. -/
def added (o : Outcome) : List Part := o.addedFields.map .field ++ o.addedIndexes.map .index

/-- The declarations that were left alone with a reason. -/
def leftAlone (o : Outcome) : List Part := o.skipped.map Skip.part

/-- Whether an outcome tells all that another one tells. -/
structure Grows (o o' : Outcome) : Prop where
  added : o.added ⊆ o'.added
  removed : o.removed ⊆ o'.removed
  leftAlone : o.leftAlone ⊆ o'.leftAlone
  review : o.review ⊆ o'.review

namespace Grows

variable {o o' o'' : Outcome}

theorem refl (o : Outcome) : Grows o o := ⟨fun _ h => h, fun _ h => h, fun _ h => h, fun _ h => h⟩

theorem trans (h : Grows o o') (h' : Grows o' o'') : Grows o o'' :=
  ⟨List.Subset.trans h.added h'.added, List.Subset.trans h.removed h'.removed,
    List.Subset.trans h.leftAlone h'.leftAlone, List.Subset.trans h.review h'.review⟩

theorem foldl {step : Outcome → Change → Outcome} (h : ∀ o c, Grows o (step o c))
    (cs : List Change) (o : Outcome) : Grows o (cs.foldl step o) :=
  List.foldlRecOn cs step (refl o) fun _ told c _ => told.trans (h _ c)

/-- What one step tells, the whole run tells. -/
theorem foldl_of_mem {step : Outcome → Change → Outcome} (h : ∀ o c, Grows o (step o c))
    {P : Outcome → Prop} (hmono : ∀ o o', Grows o o' → P o → P o') {c : Change} {cs : List Change}
    (hc : c ∈ cs) (hstep : ∀ o, P (step o c)) (o : Outcome) : P (cs.foldl step o) := by
  induction cs generalizing o with
  | nil => cases hc
  | cons d cs ih =>
    rw [List.foldl_cons]
    rcases List.mem_cons.mp hc with rfl | hc
    · exact hmono _ _ (foldl h cs _) (hstep o)
    · exact ih hc _

theorem skip (o : Outcome) (p : Part) (obstacle : Obstacle) : Grows o (o.skip p obstacle) := by
  refine ⟨fun _ h => h, fun _ h => h, ?_, fun _ h => h⟩
  simp [Outcome.leftAlone, Outcome.skip]

theorem remark (o : Outcome) (r : Remark) : Grows o (o.remark r) := by
  refine ⟨fun _ h => h, fun _ h => h, fun _ h => h, ?_⟩
  simp [Outcome.remark]

end Grows

end Outcome

open Outcome

variable {markers : Markers} {text : Text} {database code : Table} {o : Outcome} {c : Change}
  {p : Part} {name : Text}

/-! ## One step -/

theorem mem_leftAlone_skip (p : Part) (o : Outcome) (obstacle : Obstacle) :
    p ∈ (o.skip p obstacle).leftAlone := by simp [leftAlone, Outcome.skip]

theorem grows_passOver (roots : List Text) (o : Outcome) (name : Text) :
    Grows o (passOver roots o name) := by
  unfold passOver
  split
  · exact .refl o
  · exact .skip o _ _

/-- A field inside another one is left alone with a reason, unless its root speaks for it. -/
theorem mem_leftAlone_passOver {roots : List Text} (o : Outcome)
    (h : roots.contains (Path.root name) = false) :
    .field name ∈ (passOver roots o name).leftAlone := by
  rw [passOver, h]
  exact mem_leftAlone_skip _ o _

theorem grows_removeStep (markers : Markers) (roots : List Text) (o : Outcome) (c : Change) :
    Grows o (removeStep markers roots o c) := by
  unfold removeStep
  split
  · unfold takeField
    split
    · split
      · refine ⟨fun _ h => h, ?_, fun _ h => h, fun _ h => h⟩
        intro p hp
        cases p <;> simp_all [Outcome.removed]
      · exact .skip o _ _
    · exact grows_passOver roots o _
  · unfold takeIndex
    split
    · refine ⟨fun _ h => h, ?_, fun _ h => h, fun _ h => h⟩
      intro p hp
      cases p <;> simp_all [Outcome.removed]
    · exact .skip o _ _
  · exact .refl o

theorem grows_putField (markers : Markers) (roots : List Text) (database : Table) (o : Outcome)
    (f : Field) : Grows o (putField markers roots database o f) := by
  unfold putField
  split
  · split
    · refine ⟨?_, fun _ h => h, fun _ h => h, fun _ h => h⟩
      intro p hp
      cases p <;> simp_all [Outcome.added]
    · exact .skip o _ _
  · exact grows_passOver roots o _

theorem mem_putField (markers : Markers) (roots : List Text) (database : Table) (o : Outcome)
    {f : Field} (h : Path.isTopLevel f.name = true) :
    .field f.name ∈ (putField markers roots database o f).added ∨
      .field f.name ∈ (putField markers roots database o f).leftAlone := by
  rw [putField, if_pos h]
  split
  · exact .inl (by simp [Outcome.added])
  · exact .inr (mem_leftAlone_skip _ o _)

theorem grows_indexAdded (o : Outcome) (i : Index) (text : Text) :
    Grows o { o with text, addedIndexes := o.addedIndexes ++ [i.name] } := by
  refine ⟨?_, fun _ h => h, fun _ h => h, fun _ h => h⟩
  intro p hp
  cases p <;> simp_all [Outcome.added]

theorem grows_putIndex (markers : Markers) (o : Outcome) (i : Index) :
    Grows o (putIndex markers o i) := by
  unfold putIndex
  split
  · exact .skip o _ _
  · split
    · split
      · exact grows_indexAdded o i _
      · exact (grows_indexAdded o i _).trans (.remark _ _)
    · exact .skip o _ _

theorem mem_putIndex (markers : Markers) (o : Outcome) (i : Index) :
    .index i.name ∈ (putIndex markers o i).added ∨
      .index i.name ∈ (putIndex markers o i).leftAlone := by
  unfold putIndex
  split
  · exact .inr (mem_leftAlone_skip _ o _)
  · split
    · split
      · exact .inl (by simp [Outcome.added])
      · exact .inl (by simp [Outcome.added, Outcome.remark])
    · exact .inr (mem_leftAlone_skip _ o _)

theorem grows_addStep (markers : Markers) (roots : List Text) (database : Table) (o : Outcome)
    (c : Change) : Grows o (addStep markers roots database o c) := by
  unfold addStep
  split
  · split
    · exact grows_putField markers roots database o _
    · exact .refl o
  · split
    · exact grows_putIndex markers o _
    · exact .refl o
  all_goals first | exact .remark o _ | exact .refl o

/-! ## What a step tells of its change -/

theorem gained?_eq_field_iff : gained? c = some (.field name) ↔
    c.kind = .fieldAdded ∧ c.field = some name := by
  cases hkind : c.kind <;> simp [gained?, hkind]

theorem lost?_eq_field_iff : lost? c = some (.field name) ↔
    c.kind = .fieldRemoved ∧ c.field = some name := by
  cases hkind : c.kind <;> simp [lost?, hkind]

theorem gained?_eq_index_iff : gained? c = some (.index name) ↔
    c.kind = .indexAdded ∧ c.index = some name := by
  cases hkind : c.kind <;> simp [gained?, hkind]

theorem lost?_eq_index_iff : lost? c = some (.index name) ↔
    c.kind = .indexRemoved ∧ c.index = some name := by
  cases hkind : c.kind <;> simp [lost?, hkind]

theorem removeStep_of_lost_none (h : lost? c = none) (markers : Markers) (roots : List Text)
    (o : Outcome) : removeStep markers roots o c = o := by
  unfold removeStep
  split
  · rename_i hkind hfield
    rw [lost?_eq_field_iff.mpr ⟨hkind, hfield⟩] at h
    cases h
  · rename_i hkind hindex
    rw [lost?_eq_index_iff.mpr ⟨hkind, hindex⟩] at h
    cases h
  · rfl

theorem removeStep_eq_takeField (h : lost? c = some (.field name)) (markers : Markers)
    (roots : List Text) (o : Outcome) :
    removeStep markers roots o c = takeField markers roots o name := by
  obtain ⟨hkind, hfield⟩ := lost?_eq_field_iff.mp h
  simp only [removeStep, hkind, hfield]

theorem removeStep_eq_takeIndex (h : lost? c = some (.index name)) (markers : Markers)
    (roots : List Text) (o : Outcome) :
    removeStep markers roots o c = takeIndex markers o name := by
  obtain ⟨hkind, hindex⟩ := lost?_eq_index_iff.mp h
  simp only [removeStep, hkind, hindex]

/-- Another change is reported, if anything. -/
theorem addStep_of_gained_none {roots : List Text} (hp : gained? c = none) (o : Outcome) :
    addStep markers roots database o c = o ∨
      addStep markers roots database o c = o.remark (.changed c) := by
  unfold gained? at hp
  unfold addStep
  cases hkind : c.kind with
  | fieldAdded =>
    rw [hkind] at hp
    rw [Option.map_eq_none_iff.mp hp]
    exact .inl rfl
  | indexAdded =>
    rw [hkind] at hp
    rw [Option.map_eq_none_iff.mp hp]
    exact .inl rfl
  | tableTypeChanged | fieldTypeChanged | fieldDefaultChanged | fieldAssertionChanged
  | indexModified => exact .inr rfl
  | _ => exact .inl rfl

/-- A field that the database has in addition is put into the text. -/
theorem exists_addStep_eq_putField (hp : gained? c = some (.field name))
    (hd : (Part.field name).DeclaredIn database) :
    ∃ f, database.field? name = some f ∧ ∀ (markers : Markers) (roots : List Text) (o : Outcome),
      addStep markers roots database o c = putField markers roots database o f := by
  obtain ⟨hkind, hfield⟩ := gained?_eq_field_iff.mp hp
  obtain ⟨f, hf, rfl⟩ := hd
  obtain ⟨g, hg⟩ := Option.isSome_iff_exists.mp
    (find?_key_isSome_iff.mpr (List.mem_map_of_mem hf) :
      (database.fields.find? (Field.name · == f.name)).isSome = true)
  have found : database.field? f.name = some g := hg
  exact ⟨g, found, fun markers roots o => by
    simp only [addStep, hkind, hfield, Option.bind_some, found]⟩

/-- An index that the database has in addition is put into the text. -/
theorem exists_addStep_eq_putIndex (hp : gained? c = some (.index name))
    (hd : (Part.index name).DeclaredIn database) :
    ∃ i, database.index? name = some i ∧ ∀ (markers : Markers) (roots : List Text) (o : Outcome),
      addStep markers roots database o c = putIndex markers o i := by
  obtain ⟨hkind, hindex⟩ := gained?_eq_index_iff.mp hp
  obtain ⟨i, hi, rfl⟩ := hd
  obtain ⟨j, hj⟩ := Option.isSome_iff_exists.mp
    (find?_key_isSome_iff.mpr (List.mem_map_of_mem hi) :
      (database.indexes.find? (Index.name · == i.name)).isSome = true)
  have found : database.index? i.name = some j := hj
  exact ⟨j, found, fun markers roots o => by
    simp only [addStep, hkind, hindex, Option.bind_some, found]⟩

theorem mem_addStep_of_gained {roots : List Text} (hc : c ∈ database.compare code .pull)
    (hp : gained? c = some p) (htop : p.isTopLevel = true) (o : Outcome) :
    p ∈ (addStep markers roots database o c).added ∨
      p ∈ (addStep markers roots database o c).leftAlone := by
  have declared := (of_gained? hc hp).1
  cases p with
  | field name =>
    obtain ⟨f, hf, step⟩ := exists_addStep_eq_putField hp declared
    obtain ⟨-, rfl⟩ := find?_key_eq_some hf
    rw [step]
    exact mem_putField markers roots database o htop
  | index name =>
    obtain ⟨i, hi, step⟩ := exists_addStep_eq_putIndex hp declared
    obtain ⟨-, rfl⟩ := find?_key_eq_some hi
    rw [step]
    exact mem_putIndex markers o i

theorem mem_leftAlone_addStep {roots : List Text} (hc : c ∈ database.compare code .pull)
    (hp : gained? c = some (.field name)) (htop : Path.isTopLevel name = false)
    (hroot : roots.contains (Path.root name) = false) (o : Outcome) :
    .field name ∈ (addStep markers roots database o c).leftAlone := by
  obtain ⟨f, hf, step⟩ := exists_addStep_eq_putField hp (of_gained? hc hp).1
  obtain ⟨-, rfl⟩ := find?_key_eq_some hf
  rw [step, putField, if_neg (by simp [htop])]
  exact mem_leftAlone_passOver o hroot

theorem mem_leftAlone_removeStep {roots : List Text} (hp : lost? c = some (.field name))
    (htop : Path.isTopLevel name = false) (hroot : roots.contains (Path.root name) = false)
    (o : Outcome) : .field name ∈ (removeStep markers roots o c).leftAlone := by
  rw [removeStep_eq_takeField hp, takeField, if_neg (by simp [htop])]
  exact mem_leftAlone_passOver o hroot

/-- A change that is neither an addition nor a removal is reported. -/
theorem addStep_of_neither {roots : List Text} (hc : c ∈ database.compare code .pull)
    (hg : gained? c = none) (hl : lost? c = none) (o : Outcome) :
    addStep markers roots database o c = o.remark (.changed c) := by
  obtain ⟨d, hd, rfl⟩ := List.mem_map.mp hc
  change gained? d = none at hg
  change lost? d = none at hl
  have kind : (Change.describe .pull d).kind = d.kind := rfl
  rcases Change.mem_ofTables.mp hd with hd | ⟨f, -, hd⟩ | ⟨f, -, hd⟩ | ⟨i, -, hd⟩ | ⟨i, -, hd⟩
  · simp only [addStep, kind, (Change.mem_ofKind hd).1]
  · obtain ⟨defines, -, hfield, -⟩ := Change.mem_ofSourceField hd
    cases hkind : d.kind with
    | fieldAdded =>
      rw [gained?, hkind, hfield] at hg
      cases hg
    | fieldTypeChanged | fieldDefaultChanged | fieldAssertionChanged =>
      simp only [addStep, kind, hkind]
    | _ =>
      rw [hkind] at defines
      cases defines
  · obtain ⟨hkind, -, hfield, -⟩ := Change.mem_ofTargetField hd
    rw [lost?, hkind, hfield] at hl
    cases hl
  · obtain ⟨hkind, -, -, hindex⟩ := Change.mem_ofSourceIndex hd
    rcases hkind with hkind | hkind
    · rw [gained?, hkind, hindex] at hg
      cases hg
    · simp only [addStep, kind, hkind]
  · obtain ⟨hkind, -, -, hindex, -⟩ := Change.mem_ofTargetIndex hd
    rw [lost?, hkind, hindex] at hl
    cases hl

/-! ## Whole merges -/

theorem contains_roots_iff {kind : Change.Kind} {cs : List Change} :
    (roots kind cs).contains name = true ↔
      ∃ c ∈ cs, c.kind = kind ∧ c.field = some name ∧ Path.isTopLevel name = true := by
  simp only [roots, List.contains_iff_mem, List.mem_filterMap, List.mem_filter, decide_eq_true_eq,
    Option.filter_eq_some_iff, and_assoc]

/-- What a merge has done once the additions are through as well. -/
def afterAdditions (markers : Markers) (text : Text) (database code : Table) : Outcome :=
  let changes := database.compare code .pull
  changes.foldl (addStep markers (roots .fieldAdded changes) database)
    (afterRemovals markers text database code)

theorem grows_afterRemovals : Grows (afterRemovals markers text database code)
    (afterAdditions markers text database code) := .foldl (grows_addStep markers _ database) _ _

theorem grows_afterAdditions : Grows (afterAdditions markers text database code)
    (merge markers text database code) where
  added _ h := h
  removed _ h := h
  leftAlone _ h := h
  review _ h := List.mem_append_left _ h

/-- What the addition step of a change tells, the merge tells. -/
theorem merge_of_addStep {P : Outcome → Prop} (hmono : ∀ o o', Grows o o' → P o → P o')
    (hc : c ∈ database.compare code .pull) (h : ∀ o,
      P (addStep markers (roots .fieldAdded (database.compare code .pull)) database o c)) :
    P (merge markers text database code) := by
  have told : P (afterAdditions markers text database code) :=
    Grows.foldl_of_mem (grows_addStep markers _ database) hmono hc h _
  exact hmono _ _ grows_afterAdditions told

/-- What a merge tells of a change. -/
structure Told (o : Outcome) (c : Change) : Prop where
  reported : gained? c = none → lost? c = none → Remark.changed c ∈ o.review
  gained : ∀ p, gained? c = some p → p.isTopLevel = true → p ∈ o.added ∨ p ∈ o.leftAlone
  lost : ∀ p, lost? c = some p → p.isTopLevel = true → p ∈ o.removed ∨ p ∈ o.leftAlone
  gainedInside : ∀ name, gained? c = some (.field name) → Path.isTopLevel name = false →
    .field name ∈ o.leftAlone ∨ .field (Path.root name) ∈ o.added ∨
      .field (Path.root name) ∈ o.leftAlone
  lostInside : ∀ name, lost? c = some (.field name) → Path.isTopLevel name = false →
    .field name ∈ o.leftAlone ∨ .field (Path.root name) ∈ o.removed ∨
      .field (Path.root name) ∈ o.leftAlone

theorem told_merge (hc : c ∈ database.compare code .pull) :
    Told (merge markers text database code) c := by
  have grown {p : Part} (o o' : Outcome) (h : Grows o o') :
      p ∈ o.added ∨ p ∈ o.leftAlone → p ∈ o'.added ∨ p ∈ o'.leftAlone :=
    Or.imp (fun hp => h.added hp) fun hp => h.leftAlone hp
  have gained {c : Change} (hc : c ∈ database.compare code .pull) {p : Part}
      (hp : gained? c = some p) (htop : p.isTopLevel = true) :
      p ∈ (merge markers text database code).added ∨
        p ∈ (merge markers text database code).leftAlone :=
    merge_of_addStep grown hc fun o => mem_addStep_of_gained hc hp htop o
  have lost {c : Change} (hc : c ∈ database.compare code .pull) {p : Part}
      (hp : lost? c = some p) (htop : p.isTopLevel = true) :
      p ∈ (merge markers text database code).removed ∨
        p ∈ (merge markers text database code).leftAlone :=
    List.mem_append.mp (mem_handled_merge_of_lost hc hp htop)
  refine ⟨fun hg hl => ?_, fun p => gained hc, fun p => lost hc, fun name hp htop => ?_,
    fun name hp htop => ?_⟩
  · refine merge_of_addStep (fun o o' h hr => h.review hr) hc fun o => ?_
    rw [addStep_of_neither hc hg hl]
    exact List.mem_append_right _ List.mem_cons_self
  · cases hroot : (roots .fieldAdded (database.compare code .pull)).contains (Path.root name) with
    | false =>
      exact .inl (merge_of_addStep (fun o o' h hp => h.leftAlone hp) hc
        (mem_leftAlone_addStep hc hp htop hroot))
    | true =>
      obtain ⟨d, hd, hkind, hfield, htop⟩ := contains_roots_iff.mp hroot
      exact .inr (gained hd (gained?_eq_field_iff.mpr ⟨hkind, hfield⟩) htop)
  · cases hroot : (roots .fieldRemoved (database.compare code .pull)).contains (Path.root name) with
    | false =>
      have taken : .field name ∈ (afterRemovals markers text database code).leftAlone :=
        Grows.foldl_of_mem (grows_removeStep markers _) (fun o o' h hp => h.leftAlone hp) hc
          (mem_leftAlone_removeStep hp htop hroot) _
      exact .inl ((grows_afterRemovals.trans grows_afterAdditions).leftAlone taken)
    | true =>
      obtain ⟨d, hd, hkind, hfield, htop⟩ := contains_roots_iff.mp hroot
      exact .inr (lost hd (lost?_eq_field_iff.mpr ⟨hkind, hfield⟩) htop)

/-! ## Entries of inner fields -/

theorem addedFields_addStep {roots : List Text} (h : name ∈
    (addStep markers roots database o c).addedFields) :
    name ∈ o.addedFields ∨ Path.isTopLevel name = true ∧ gained? c = some (.field name) := by
  have passed {n : Text} (h : name ∈ (passOver roots o n).addedFields) : name ∈ o.addedFields := by
    unfold passOver at h
    split at h <;> exact h
  unfold addStep at h
  split at h
  · rename_i hkind
    split at h
    · rename_i f hfound
      obtain ⟨n, hfield, hf⟩ := Option.bind_eq_some_iff.mp hfound
      obtain ⟨-, rfl⟩ := find?_key_eq_some hf
      unfold putField at h
      split at h
      · rename_i htop
        split at h
        · rcases List.mem_append.mp h with h | h
          · exact .inl h
          · rw [List.mem_singleton.mp h]
            exact .inr ⟨htop, gained?_eq_field_iff.mpr ⟨hkind, hfield⟩⟩
        · exact .inl h
      · exact .inl (passed h)
    · exact .inl h
  · split at h
    · unfold putIndex at h
      split at h
      · exact .inl h
      · split at h
        · split at h <;> exact .inl h
        · exact .inl h
    · exact .inl h
  all_goals exact .inl h

theorem added_removeStep (markers : Markers) (roots : List Text) (o : Outcome) (c : Change) :
    (removeStep markers roots o c).addedFields = o.addedFields ∧
      (removeStep markers roots o c).addedIndexes = o.addedIndexes := by
  unfold removeStep
  split
  · unfold takeField
    split
    · split <;> exact ⟨rfl, rfl⟩
    · unfold passOver
      split <;> exact ⟨rfl, rfl⟩
  · unfold takeIndex
    split <;> exact ⟨rfl, rfl⟩
  · exact ⟨rfl, rfl⟩

theorem added_afterRemovals : (afterRemovals markers text database code).addedFields = [] ∧
    (afterRemovals markers text database code).addedIndexes = [] := by
  have removals (roots : List Text) (cs : List Change) (o : Outcome) :
      (cs.foldl (removeStep markers roots) o).addedFields = o.addedFields ∧
        (cs.foldl (removeStep markers roots) o).addedIndexes = o.addedIndexes := by
    induction cs generalizing o with
    | nil => exact ⟨rfl, rfl⟩
    | cons c cs ih =>
      obtain ⟨hfields, hindexes⟩ := added_removeStep markers roots o c
      rw [List.foldl_cons, (ih _).1, (ih _).2]
      exact ⟨hfields, hindexes⟩
  exact removals _ _ _

theorem mem_addedFields_merge (h : name ∈ (merge markers text database code).addedFields) :
    Path.isTopLevel name = true ∧
      ∃ c ∈ database.compare code .pull, gained? c = some (.field name) := by
  have additions (roots : List Text) (cs : List Change) (o : Outcome)
      (h : name ∈ (cs.foldl (addStep markers roots database) o).addedFields) :
      name ∈ o.addedFields ∨
        Path.isTopLevel name = true ∧ ∃ c ∈ cs, gained? c = some (.field name) := by
    induction cs generalizing o with
    | nil => exact .inl h
    | cons c cs ih =>
      rcases ih _ h with h | ⟨htop, d, hd, hgained⟩
      · rcases addedFields_addStep h with h | ⟨htop, hgained⟩
        · exact .inl h
        · exact .inr ⟨htop, c, List.mem_cons_self, hgained⟩
      · exact .inr ⟨htop, d, List.mem_cons_of_mem c hd, hgained⟩
  rcases additions _ _ (afterRemovals markers text database code) h with h | h
  · rw [added_afterRemovals.1] at h
    cases h
  · exact h

theorem mem_withoutNamed {es names : List Text} {e : Text} (h : e ∈ withoutNamed es names) :
    e ∈ es := by
  induction names generalizing es with
  | nil => exact h
  | cons n names ih => exact List.mem_of_mem_eraseP (ih h)

theorem mem_withoutNamed_of_not {es names : List Text} {e : Text} (h : e ∈ es)
    (hnot : ∀ n ∈ names, isNamed n e = false) : e ∈ withoutNamed es names := by
  induction names generalizing es with
  | nil => exact h
  | cons n names ih =>
    obtain ⟨hn, hrest⟩ := List.forall_mem_cons.mp hnot
    exact ih ((List.mem_eraseP_of_neg (by simp [hn])).mpr h) hrest

/-- An entry is not that of a field of the table itself and of a field inside another. -/
theorem isNamed_eq_false {n e : Text} (hn : Path.isTopLevel n = true)
    (hname : Path.isTopLevel name = false) (he : isNamed name e = true) : isNamed n e = false := by
  unfold isNamed at he ⊢
  rw [eq_of_beq he, beq_eq_false_iff_ne]
  exact fun h => Path.normal_ne_of_isTopLevel hn hname (Option.some.inj h).symm

theorem isNamed_of_isEntryOf {n entry : Text} (h : IsEntryOf database n entry)
    (hn : Path.isTopLevel n = true) (hname : Path.isTopLevel name = false) :
    isNamed name entry = false := by
  obtain ⟨f, indent, hf, -, hentry⟩ := h
  obtain ⟨-, rfl⟩ := find?_key_eq_some hf
  have text : entry = "(" ++ Text.quote f.name ++ ", " ++
      Source.builder indent (Declaration.ofField database f) ++ ")" := by
    have joined : indent ++ ("(" ++ Text.quote f.name ++ ", " ++
        Source.builder indent (Declaration.ofField database f) ++ ")") = indent ++ entry := by
      rw [← hentry, Source.entry]
      simp only [List.append_assoc]
    exact (List.append_cancel_left joined).symm
  rw [isNamed, text, entryName?_entry, Option.map_some, beq_eq_false_iff_ne]
  exact fun h => Path.normal_ne_of_isTopLevel (Path.isTopLevel_flatMap_escape hn) hname
    (Option.some.inj h)

/-- A merge leaves the entries of a field inside another one alone. -/
theorem exists_isNamed_merge_iff (hadded : '\n' ∉ markers.added) (hremoved : '\n' ∉ markers.removed)
    (hquotes : NoLooseQuote (pieces 0 none text))
    (hgroups : ∀ opening closing, fieldsList? text = some (opening, closing) →
      ∀ e ∈ entries text opening closing, IsGroup text e)
    (hi : ∀ i, i ∈ database.indexes ↔ i ∈ code.indexes) (hname : Path.isTopLevel name = false) :
    (∃ e ∈ entryTexts (merge markers text database code).text, isNamed name e = true) ↔
      ∃ e ∈ entryTexts text, isNamed name e = true := by
  cases hlist : fieldsList? text with
  | none =>
    have kept : SameFields { text := text } (merge markers text database code) :=
      sameFields_merge hlist hi
    rw [kept.1]
  | some brackets =>
    obtain ⟨opening, closing⟩ := brackets
    obtain ⟨pre, parts, post, close, listed, alternate⟩ :=
      exists_listed hlist (hgroups opening closing hlist) hquotes
    obtain ⟨parts', added, merged, alternate', helements, hall⟩ :=
      exists_listed_merge hadded hremoved hi listed alternate
    rw [merged.entryTexts_eq alternate', listed.entryTexts_eq alternate, helements]
    constructor
    · rintro ⟨e, he, hnamed⟩
      rcases List.mem_append.mp he with he | he
      · exact ⟨e, mem_withoutNamed he, hnamed⟩
      · obtain ⟨n, hn, hentry⟩ := exists_mem_of_forall₂ hall he
        rw [isNamed_of_isEntryOf hentry (mem_addedFields_merge hn).1 hname] at hnamed
        cases hnamed
    · rintro ⟨e, he, hnamed⟩
      refine ⟨e, List.mem_append_left _ (mem_withoutNamed_of_not he fun n hn => ?_), hnamed⟩
      have taken : Part.field n ∈ (merge markers text database code).removed :=
        List.mem_append_left _ (List.mem_map_of_mem hn)
      exact isNamed_eq_false (mem_removed_merge taken).1 hname hnamed

/-! ## Every change -/

/-- Whether the builder of a field declares a field at a path inside it. -/
def Declares (t : Table) (root name : Text) : Prop :=
  ∃ f, t.field? root = some f ∧
    ∃ x ∈ (Declaration.ofField t f).inside f.name, x.path = Path.normal name

/-- Whether nothing of a change is lost: what a merge passes over for the sake of the field around
it is written or taken out together with that. -/
structure Accounted (database : Table) (o : Outcome) (c : Change) : Prop extends Told o c where
  written : ∀ name, gained? c = some (.field name) → Path.isTopLevel name = false →
    .field name ∉ o.leftAlone → Path.root name ∈ o.addedFields →
      Declares database (Path.root name) name
  cleared : ∀ name, lost? c = some (.field name) → Path.isTopLevel name = false →
    .field name ∉ o.leftAlone → Path.root name ∈ o.removedFields →
      ∀ e ∈ entryTexts o.text, isNamed name e = false

/-- What becomes of a change in a merge. What it names is added, commented out or left alone with a
reason, or it is reported; for a field inside another one, the root of its path may stand instead.
The builder of the root holds that of the field if it encloses it, and where the fields can be
folded only then. The entries that such a field has of its own are neither taken out nor put in. -/
theorem told_of_mem_compare (hd : database.Keyed) (hc : c ∈ database.compare code .pull) :
    Told (merge markers text database code) c ∧
    (∀ f ∈ database.fields, ∀ g ∈ database.fields, gained? c = some (.field g.name) →
      f.name = Path.root g.name →
        (database.Encloses f g → ∀ indent, ∃ inset,
          Source.builder inset (Declaration.ofField database g) <:+:
            Source.entry indent f.name (Declaration.ofField database f)) ∧
        (database.Foldable → (Declares database f.name g.name ↔ database.Encloses f g))) ∧
    (∀ name, lost? c = some (.field name) → Path.isTopLevel name = false →
      '\n' ∉ markers.added → '\n' ∉ markers.removed → NoLooseQuote (pieces 0 none text) →
      (∀ opening closing, fieldsList? text = some (opening, closing) →
        ∀ e ∈ entries text opening closing, IsGroup text e) →
      (∀ i, i ∈ database.indexes ↔ i ∈ code.indexes) →
        ((∃ e ∈ entryTexts (merge markers text database code).text, isNamed name e = true) ↔
          ∃ e ∈ entryTexts text, isNamed name e = true)) := by
  refine ⟨told_merge hc, fun f hf g hg _ _ => ⟨fun h indent => ?_, fun ht => ?_⟩,
    fun name _ hname hadded hremoved hquotes hgroups hi =>
      exists_isNamed_merge_iff hadded hremoved hquotes hgroups hi hname⟩
  · obtain ⟨inset, hinset⟩ := Source.exists_builder_infix hd.paths h indent
    refine ⟨inset, hinset.trans ?_⟩
    rw [Source.entry]
    exact List.infix_append _ _ _
  · rw [← Declaration.exists_mem_inside_iff ht hf hg rfl]
    have names : (database.fields.map Field.name).Nodup := by
      have paths := hd.paths
      rw [show Field.path = Path.normal ∘ Field.name from rfl, ← List.map_map] at paths
      exact paths.of_map
    have own : database.field? f.name = some f := find?_key_of_mem names hf
    constructor
    · rintro ⟨f', hf', x, hx, hpath⟩
      cases own.symm.trans hf'
      exact ⟨x, hx, hpath⟩
    · rintro ⟨x, hx, hpath⟩
      exact ⟨f, own, x, hx, hpath⟩

/-- An address with a field that it absorbs. -/
def address : Field := { name := "address", type := "object" }

def city : Field := { name := "address.city", type := "string" }

def addressed : Table := { name := "t", fields := [address, city] }

/-- Tags of any type, with a constraint of their elements that they do not absorb. -/
def tags : Field := { name := "tags", type := "array" }

def elements : Field := { name := "tags[*]", type := "string" }

def loose : Table := { name := "t", fields := [tags, elements] }

def bare : Table := { name := "t" }

theorem normal_of_isAtom {t : Text} (h : TypeExpr.IsAtom t) : TypeExpr.normal t = t := by
  have whole : t.filter (fun c => !Text.isBlank c) = t :=
    List.filter_eq_self.mpr fun c hc => by rw [h.settled.blankless c hc]; rfl
  rw [TypeExpr.normal, whole, h.settled.normal]

theorem encloses_addressed : addressed.Encloses address city := by
  have object : TypeExpr.normal address.type = "object" := normal_of_isAtom (by decide)
  have keyed : addressed.Keyed := by decide
  have unwrapped : TypeExpr.unwrapOption "object" = "object" :=
    TypeExpr.unwrapOption_of_none (by decide)
  have inside : city ∈ addressed.absorbed address := by
    refine (Table.mem_absorbed_iff keyed.paths (by simp [addressed])).mpr
      ⟨by simp [addressed], by decide, ?_⟩
    rw [Table.Names, if_neg (by decide), object, unwrapped]
  refine .here ⟨by simp [addressed], inside, fun kind args hc => ?_⟩
  rw [object, unwrapped] at hc
  cases (show Declaration.container? "object" = none by decide).symm.trans hc

theorem element?_tags : TypeExpr.element? tags.type = some "any" := by
  rw [Declaration.element?_eq, normal_of_isAtom (by decide), Declaration.elementOf?,
    TypeExpr.unwrapOption_of_none (by decide)]
  decide

theorem normal_elements : TypeExpr.normal elements.type = "string" := normal_of_isAtom (by decide)

theorem parent_elements : (Path.parent? elements.name).bind loose.fieldAt? = some tags := by decide

theorem implies_loose : loose.implies elements = false := by
  simp only [Table.implies, parent_elements, Option.bind_some, element?_tags, normal_elements]
  decide

/-- A list with an entry for the tags and one for their elements. -/
def looseText : Text := "m(\"t\").fields(vec![\n  (\"tags\", s()),\n  (\"tags[*]\", s()),\n])"

theorem told_of_mem_compare_city :
    (∃ c ∈ addressed.compare bare .pull, gained? c = some (.field city.name) ∧
      Told (merge {} (Source.file bare) addressed bare) c ∧
      ∃ inset, Source.builder inset (Declaration.ofField addressed city) <:+:
        Source.entry [] address.name (Declaration.ofField addressed address)) ∧
    ∃ c ∈ bare.compare loose .pull, lost? c = some (.field elements.name) ∧
      Told (merge {} looseText bare loose) c ∧
      ∃ e ∈ entryTexts (merge {} looseText bare loose).text, isNamed elements.name e = true := by
  have keyed : addressed.Keyed ∧ bare.Keyed := by decide
  constructor
  · have proper : addressed.implies city = false := by
      simp only [Table.implies]
      rfl
    have added : ⟨.fieldAdded, "t", some city.name, none, none, some city.type, []⟩ ∈
        Change.ofTables addressed bare := by
      refine Change.mem_ofTables.mpr (.inr (.inl ⟨city, by simp [addressed], ?_⟩))
      rw [Change.ofSourceField]
      change _ ∈ if addressed.implies city then _ else _
      rw [proper]
      exact List.mem_singleton_self _
    have mem := List.mem_map_of_mem (f := Change.describe .pull) added
    have told : Told (merge {} (Source.file bare) addressed bare) _ ∧ _ :=
      told_of_mem_compare keyed.1 mem
    have enclosed :=
      told.2.1 address (by simp [addressed]) city (by simp [addressed]) rfl (by decide)
    exact ⟨_, mem, rfl, told.1, enclosed.1 encloses_addressed []⟩
  · have removed : ⟨.fieldRemoved, "t", some elements.name, none, some elements.type, none, []⟩ ∈
        Change.ofTables bare loose := by
      refine Change.mem_ofTables.mpr (.inr (.inr (.inl ⟨elements, by simp [loose], ?_⟩)))
      rw [Change.ofTargetField, implies_loose]
      exact List.mem_singleton_self _
    have mem := List.mem_map_of_mem (f := Change.describe .pull) removed
    have told : Told (merge {} looseText bare loose) _ ∧ _ := told_of_mem_compare keyed.2 mem
    refine ⟨_, mem, rfl, told.1, ?_⟩
    refine (told.2.2 elements.name rfl (by decide) (by decide) (by decide) (by decide +kernel)
      (fun opening closing h => ?_) fun i => Iff.rfl).mpr (by decide +kernel)
    have list : fieldsList? looseText = some (18, 57) := by decide +kernel
    obtain ⟨rfl, rfl⟩ := Prod.mk.inj (Option.some.inj (list.symm.trans h))
    decide +kernel

theorem absorbs_loose : loose.absorbs elements = false := by
  simp only [Table.absorbs, parent_elements, element?_tags, normal_elements]
  decide

theorem not_declares_loose : ¬Declares loose "tags" "tags[*]" := by
  rintro ⟨f, hf, x, hx, -⟩
  obtain rfl : tags = f := Option.some.inj hf
  have nothing : loose.absorbed tags = [] := by
    refine List.filter_eq_nil_iff.mpr fun g hg => ?_
    rcases List.mem_cons.mp hg with rfl | hg
    · have outside : Table.isInside tags tags = false := by decide
      rw [outside]
      decide
    · rw [List.mem_singleton.mp hg, absorbs_loose, Bool.and_false]
      decide
  have stray : loose.hasStray tags = true := by
    refine List.any_eq_true.mpr ⟨elements, by simp [loose], ?_⟩
    rw [absorbs_loose]
    decide
  have elementType : Declaration.elementOf? (TypeExpr.normal tags.type) = some "any" := by
    rw [← Declaration.element?_eq, element?_tags]
  have bound : Declaration.HasBound (TypeExpr.normal tags.type) := by
    intro kind args hc
    rw [normal_of_isAtom (by decide), TypeExpr.unwrapOption_of_none (by decide)] at hc
    cases (show Declaration.container? tags.type = some (.array, none) by decide).symm.trans hc
  rw [Declaration.ofField_eq, Declaration.inside_shapeOf_element _ elementType bound] at hx
  have outside : (Declaration.innerOf loose tags).elementFor "any" = none := by
    rw [Declaration.innerOf, nothing, stray]
    rfl
  rw [outside] at hx
  cases hx

/-- The change that adds a field to the bare table. -/
def addition (f : Field) : Change := .describe .pull
  { kind := .fieldAdded, table := "t", field := some f.name, newValue := some f.type }

theorem compare_loose : loose.compare bare .pull = [addition tags, addition elements] := by
  have proper : loose.implies tags = false := by
    simp only [Table.implies]
    rfl
  have source (f : Field) (hf : loose.implies f = false) : Change.ofSourceField loose bare f =
      [{ kind := .fieldAdded, table := "t", field := some f.name, newValue := some f.type }] := by
    rw [Change.ofSourceField]
    change (if loose.implies f then _ else _) = _
    rw [hf]
    rfl
  have all : Change.ofTables loose bare =
      [tags, elements].flatMap (Change.ofSourceField loose bare) := by
    rw [Change.ofTables]
    simp [bare, loose, Change.ofKind]
  rw [Table.compare, all, List.flatMap_cons, source _ proper, List.flatMap_cons,
    source _ implies_loose]
  rfl

/-- The element constraint is passed over for the sake of the tags. -/
theorem merge_loose : ∃ text, merge {} (Source.file bare) loose bare =
    { text, addedFields := ["tags"] } := by
  obtain ⟨brackets, hbrackets⟩ := Option.isSome_iff_exists.mp
    (show (Code.fieldsList? (Source.file bare)).isSome = true by decide +kernel)
  obtain ⟨text, htext⟩ : ∃ text, insertField ({ text := Source.file bare } : Outcome).text loose
      tags ({} : Markers).added = .ok text := by
    rw [insertField, hbrackets]
    exact ⟨_, rfl⟩
  have inserted (rs : List Text) : addStep {} rs loose { text := Source.file bare }
      (addition tags) = { text, addedFields := ["tags"] } := by
    change putField {} rs loose { text := Source.file bare } tags = _
    rw [putField, if_pos (by decide), htext]
    rfl
  have kept (rs : List Text) : removeStep {} rs (removeStep {} rs { text := Source.file bare }
      (addition tags)) (addition elements) = { text := Source.file bare } := rfl
  refine ⟨text, ?_⟩
  rw [merge, compare_loose]
  simp only [List.foldl_cons, List.foldl_nil]
  rw [kept, inserted]
  rfl

/-- An element constraint that a merge neither adds nor tells of. -/
theorem not_accounted :
    ¬∀ (markers : Markers) (text : Text) (database code : Table), database.Keyed → code.Keyed →
      ∀ c ∈ database.compare code .pull,
        Accounted database (merge markers text database code) c := by
  intro h
  have keyed : loose.Keyed ∧ bare.Keyed := by decide
  have mem : addition elements ∈ loose.compare bare .pull := by simp [compare_loose]
  have accounted := h {} (Source.file bare) loose bare keyed.1 keyed.2 _ mem
  obtain ⟨text, hmerge⟩ := merge_loose
  rw [hmerge] at accounted
  have passed : Part.field "tags[*]" ∉ ({ text, addedFields := ["tags"] } : Outcome).leftAlone :=
    List.not_mem_nil
  have root : Path.root "tags[*]" ∈ ({ text, addedFields := ["tags"] } : Outcome).addedFields :=
    List.mem_cons_self
  exact not_declares_loose (accounted.written "tags[*]" rfl (by decide) passed root)

end SchemaDrift.Merge
