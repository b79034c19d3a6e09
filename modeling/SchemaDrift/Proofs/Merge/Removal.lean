import SchemaDrift.Merge.Basic
import SchemaDrift.Proofs.Change.About

namespace SchemaDrift.Merge

/-!
# What a merge takes out

A merge acts on the declarations that its changes name and on no others. So it comments out, or
leaves alone with a reason, just the declarations that the database does not have.
-/

/-- Whether the declaration stands in a list of its own, and not inside another field. -/
def Part.isTopLevel : Part → Bool
  | .field name => Path.isTopLevel name
  | .index _ => true

namespace Outcome

/-- The declarations that were commented out. -/
def removed (o : Outcome) : List Part := o.removedFields.map .field ++ o.removedIndexes.map .index

/-- The declarations that were commented out or left alone with a reason. -/
def handled (o : Outcome) : List Part := o.removed ++ o.skipped.map Skip.part

end Outcome

/-- The declaration that a change finds in the code alone. -/
def lost? (c : Change) : Option Part :=
  match c.kind with
  | .fieldRemoved => c.field.map .field
  | .indexRemoved => c.index.map .index
  | _ => none

/-- The declaration that a change finds in the database alone. -/
def gained? (c : Change) : Option Part :=
  match c.kind with
  | .fieldAdded => c.field.map .field
  | .indexAdded => c.index.map .index
  | _ => none

/-! ## One step -/

/-- Whether what a step takes out or leaves alone is among these declarations. -/
structure Concerns (Q : Part → Prop) (o o' : Outcome) : Prop where
  keeps : ∀ p ∈ o.handled, p ∈ o'.handled
  handles : ∀ p ∈ o'.handled, p ∈ o.handled ∨ Q p
  removes : ∀ p ∈ o'.removed, p ∈ o.removed ∨ (Q p ∧ p.isTopLevel = true)

namespace Concerns

variable {Q R : Part → Prop} {o o' o'' : Outcome}

theorem refl (o : Outcome) : Concerns Q o o := ⟨fun _ => id, fun _ => .inl, fun _ => .inl⟩

theorem mono (h : Concerns Q o o') (hQ : ∀ p, Q p → R p) : Concerns R o o' := by
  constructor
  · exact h.keeps
  · intro p hp
    exact (h.handles p hp).imp_right (hQ p)
  · intro p hp
    exact (h.removes p hp).imp_right fun ⟨hq, htop⟩ => ⟨hQ p hq, htop⟩

theorem trans (h₁ : Concerns Q o o') (h₂ : Concerns Q o' o'') : Concerns Q o o'' := by
  constructor
  · intro p hp
    exact h₂.keeps p (h₁.keeps p hp)
  · intro p hp
    rcases h₂.handles p hp with hp | hq
    · exact h₁.handles p hp
    · exact .inr hq
  · intro p hp
    rcases h₂.removes p hp with hp | hq
    · exact h₁.removes p hp
    · exact .inr hq

theorem skip (q : Part) (o : Outcome) (obstacle : Obstacle) :
    Concerns (q = ·) o (o.skip q obstacle) := by
  have handled : (o.skip q obstacle).handled = o.handled ++ [q] := by
    simp [Outcome.handled, Outcome.skip, Outcome.removed]
  constructor
  · intro p hp
    rw [handled]
    exact List.mem_append_left _ hp
  · intro p hp
    rw [handled, List.mem_append, List.mem_singleton] at hp
    exact hp.imp_right Eq.symm
  · intro p hp
    exact .inl hp

/-- A step that puts a declaration among the removed ones and leaves the reasons alone. -/
theorem of_removed {q : Part} (hq : q.isTopLevel = true)
    (hremoved : ∀ p, p ∈ o'.removed ↔ p ∈ o.removed ∨ p = q) (hskipped : o'.skipped = o.skipped) :
    Concerns (q = ·) o o' := by
  constructor
  · intro p hp
    rw [Outcome.handled, hskipped, List.mem_append, hremoved]
    exact (List.mem_append.mp hp).imp_left .inl
  · intro p hp
    rw [Outcome.handled, hskipped, List.mem_append, hremoved] at hp
    rcases hp with (hp | rfl) | hp
    · exact .inl (List.mem_append_left _ hp)
    · exact .inr rfl
    · exact .inl (List.mem_append_right _ hp)
  · intro p hp
    rcases (hremoved p).mp hp with hp | rfl
    · exact .inl hp
    · exact .inr ⟨rfl, hq⟩

theorem of_eq (hremoved : o'.removed = o.removed) (hskipped : o'.skipped = o.skipped) :
    Concerns Q o o' := by
  have handled : o'.handled = o.handled := by
    rw [Outcome.handled, hremoved, hskipped, Outcome.handled]
  constructor
  · intro p hp
    rwa [handled]
  · intro p hp
    rw [handled] at hp
    exact .inl hp
  · intro p hp
    rw [hremoved] at hp
    exact .inl hp

theorem foldl {step : Outcome → Change → Outcome} {Q : Change → Part → Prop}
    (h : ∀ o c, Concerns (Q c) o (step o c)) (cs : List Change) (o : Outcome) :
    Concerns (fun p => ∃ c ∈ cs, Q c p) o (cs.foldl step o) := by
  induction cs generalizing o with
  | nil => exact refl o
  | cons c cs ih =>
    have first := (h o c).mono fun p hp => (⟨c, List.mem_cons_self, hp⟩ : ∃ d ∈ c :: cs, Q d p)
    have rest := (ih (step o c)).mono fun p ⟨d, hd, hp⟩ =>
      (⟨d, List.mem_cons_of_mem c hd, hp⟩ : ∃ d ∈ c :: cs, Q d p)
    exact first.trans rest

end Concerns

theorem mem_handled_skip (q : Part) (o : Outcome) (obstacle : Obstacle) :
    q ∈ (o.skip q obstacle).handled := by simp [Outcome.handled, Outcome.skip]

theorem text_passOver (roots : List Text) (o : Outcome) (name : Text) :
    (passOver roots o name).text = o.text := by
  unfold passOver
  split <;> rfl

theorem concerns_passOver (roots : List Text) (o : Outcome) (name : Text) :
    Concerns (.field name = ·) o (passOver roots o name) := by
  unfold passOver
  split
  · exact .refl o
  · exact .skip _ o _

theorem concerns_takeField (markers : Markers) (roots : List Text) (o : Outcome) (name : Text) :
    Concerns (.field name = ·) o (takeField markers roots o name) := by
  unfold takeField
  split
  · rename_i htop
    split
    · refine .of_removed htop (fun p => ?_) rfl
      cases p <;> simp [Outcome.removed]
    · exact .skip _ o _
  · exact concerns_passOver roots o name

theorem mem_handled_takeField (markers : Markers) (roots : List Text) (o : Outcome) {name : Text}
    (htop : Path.isTopLevel name = true) :
    .field name ∈ (takeField markers roots o name).handled := by
  rw [takeField, if_pos htop]
  split
  · simp [Outcome.handled, Outcome.removed]
  · exact mem_handled_skip _ o _

theorem concerns_takeIndex (markers : Markers) (o : Outcome) (name : Text) :
    Concerns (.index name = ·) o (takeIndex markers o name) := by
  unfold takeIndex
  split
  · refine .of_removed rfl (fun p => ?_) rfl
    cases p <;> simp [Outcome.removed]
  · exact .skip _ o _

theorem mem_handled_takeIndex (markers : Markers) (o : Outcome) (name : Text) :
    .index name ∈ (takeIndex markers o name).handled := by
  unfold takeIndex
  split
  · simp [Outcome.handled, Outcome.removed]
  · exact mem_handled_skip _ o _

theorem concerns_removeStep (markers : Markers) (roots : List Text) (o : Outcome) (c : Change) :
    Concerns (lost? c = some ·) o (removeStep markers roots o c) := by
  unfold removeStep lost?
  cases hkind : c.kind with
  | fieldRemoved =>
    cases hfield : c.field with
    | none => exact .refl o
    | some name =>
      exact (concerns_takeField markers roots o name).mono fun p hp => congrArg some hp
  | indexRemoved =>
    cases hindex : c.index with
    | none => exact .refl o
    | some name => exact (concerns_takeIndex markers o name).mono fun p hp => congrArg some hp
  | _ => exact .refl o

theorem mem_handled_removeStep (markers : Markers) (roots : List Text) (o : Outcome) {c : Change}
    {p : Part} (hp : lost? c = some p) (htop : p.isTopLevel = true) :
    p ∈ (removeStep markers roots o c).handled := by
  unfold lost? at hp
  split at hp
  · rename_i hkind
    obtain ⟨name, hname, rfl⟩ := Option.map_eq_some_iff.mp hp
    simp only [removeStep, hkind, hname]
    exact mem_handled_takeField markers roots o htop
  · rename_i hkind
    obtain ⟨name, hname, rfl⟩ := Option.map_eq_some_iff.mp hp
    simp only [removeStep, hkind, hname]
    exact mem_handled_takeIndex markers o name
  · cases hp

theorem concerns_putField (markers : Markers) (roots : List Text) (database : Table) (o : Outcome)
    (f : Field) : Concerns (.field f.name = ·) o (putField markers roots database o f) := by
  unfold putField
  split
  · split
    · exact .of_eq rfl rfl
    · exact .skip _ o _
  · exact concerns_passOver roots o f.name

theorem concerns_putIndex (markers : Markers) (o : Outcome) (i : Index) :
    Concerns (.index i.name = ·) o (putIndex markers o i) := by
  unfold putIndex
  split
  · exact .skip _ o _
  · split
    · split
      · exact .of_eq rfl rfl
      · exact .of_eq rfl rfl
    · exact .skip _ o _

theorem concerns_addStep (markers : Markers) (roots : List Text) (database : Table) (o : Outcome)
    (c : Change) : Concerns (gained? c = some ·) o (addStep markers roots database o c) := by
  unfold addStep gained?
  cases hkind : c.kind with
  | fieldAdded =>
    dsimp only
    cases hfound : c.field.bind database.field? with
    | none => exact .refl o
    | some f =>
      obtain ⟨name, hname, hf⟩ := Option.bind_eq_some_iff.mp hfound
      obtain ⟨-, rfl⟩ := find?_key_eq_some hf
      rw [hname]
      exact (concerns_putField markers roots database o f).mono fun p hp => congrArg some hp
  | indexAdded =>
    dsimp only
    cases hfound : c.index.bind database.index? with
    | none => exact .refl o
    | some i =>
      obtain ⟨name, hname, hi⟩ := Option.bind_eq_some_iff.mp hfound
      obtain ⟨-, rfl⟩ := find?_key_eq_some hi
      rw [hname]
      exact (concerns_putIndex markers o i).mono fun p hp => congrArg some hp
  | _ => exact .of_eq rfl rfl

theorem removed_addStep (markers : Markers) (roots : List Text) (database : Table) (o : Outcome)
    (c : Change) : (addStep markers roots database o c).removed = o.removed := by
  have passOver (name : Text) : (passOver roots o name).removed = o.removed := by
    unfold Merge.passOver
    split <;> rfl
  unfold addStep
  split
  · split
    · unfold putField
      split
      · split <;> rfl
      · exact passOver _
    · rfl
  · split
    · unfold putIndex
      split
      · rfl
      · split
        · split <;> rfl
        · rfl
    · rfl
  all_goals rfl

/-! ## Changes and declarations -/

/-- Whether the table declares a field or an index of this name. -/
def Part.DeclaredIn (t : Table) : Part → Prop
  | .field name => ∃ f ∈ t.fields, f.name = name
  | .index name => ∃ i ∈ t.indexes, i.name = name

/-- Whether the table has a field at the path of this field, or an index of this name. -/
def Part.heldBy (t : Table) : Part → Bool
  | .field name => (t.lastFieldAt? (Path.normal name)).isSome
  | .index name => (t.index? name).isSome

theorem Part.DeclaredIn.heldBy {t : Table} {p : Part} (h : p.DeclaredIn t) :
    p.heldBy t = true := by
  cases p with
  | field name =>
    obtain ⟨f, hf, rfl⟩ := h
    exact List.find?_isSome.mpr ⟨f, List.mem_reverse.mpr hf, beq_self_eq_true _⟩
  | index name =>
    obtain ⟨i, hi, rfl⟩ := h
    exact List.find?_isSome.mpr ⟨i, hi, beq_self_eq_true _⟩

/-- The parts that a table declares. -/
def partsOf (t : Table) : List Part :=
  (t.fields.map fun f => .field f.name) ++ t.indexes.map fun i => .index i.name

/-- The parts of a table that another one does not have, without the elements that the type of the
field around them speaks for. -/
def unmatched (t other : Table) : List Part :=
  ((t.fields.filter fun f => !((other.lastFieldAt? f.path).isSome || t.implies f)).map
      fun f => .field f.name) ++
    (t.indexes.filter fun i => !(other.index? i.name).isSome).map fun i => .index i.name

section Changes

variable {database code t other : Table} {c : Change} {p : Part}

theorem sublist_unmatched : (unmatched t other).Sublist (partsOf t) :=
  (List.filter_sublist.map _).append (List.filter_sublist.map _)

theorem of_mem_unmatched (h : p ∈ unmatched t other) :
    p.DeclaredIn t ∧ p.heldBy other = false := by
  rcases List.mem_append.mp h with h | h
  · obtain ⟨f, hf, rfl⟩ := List.mem_map.mp h
    obtain ⟨hf, hnone⟩ := List.mem_filter.mp hf
    rw [Bool.not_eq_true', Bool.or_eq_false_iff] at hnone
    exact ⟨⟨f, hf, rfl⟩, hnone.1⟩
  · obtain ⟨i, hi, rfl⟩ := List.mem_map.mp h
    obtain ⟨hi, hnone⟩ := List.mem_filter.mp hi
    exact ⟨⟨i, hi, rfl⟩, (Bool.not_eq_true' _).mp hnone⟩

theorem mem_unmatched (hdeclared : p.DeclaredIn t) (htop : p.isTopLevel = true)
    (hnone : p.heldBy other = false) : p ∈ unmatched t other := by
  cases p with
  | field name =>
    obtain ⟨f, hf, rfl⟩ := hdeclared
    have proper : f.isWildcard = false := by
      change (!Path.isNested f.name && !Path.isWildcard f.name) = true at htop
      simpa [Field.isWildcard] using (Bool.and_eq_true_iff.mp htop).2
    have gone : (other.lastFieldAt? f.path).isSome = false := hnone
    have implied : t.implies f = false := by simp [Table.implies, proper]
    refine List.mem_append_left _ (List.mem_map.mpr ⟨f, List.mem_filter.mpr ⟨hf, ?_⟩, rfl⟩)
    rw [gone, implied]
    rfl
  | index name =>
    obtain ⟨i, hi, rfl⟩ := hdeclared
    have gone : (other.index? i.name).isSome = false := hnone
    refine List.mem_append_right _ (List.mem_map.mpr ⟨i, List.mem_filter.mpr ⟨hi, ?_⟩, rfl⟩)
    rw [gone]
    rfl

/-! What each family of changes finds on one side alone. -/

theorem filterMap_ofKind : (Change.ofKind database code).filterMap lost? = [] ∧
    (Change.ofKind database code).filterMap gained? = [] := by
  unfold Change.ofKind
  split <;> exact ⟨rfl, rfl⟩

theorem filterMap_ofField (table : Text) (f g : Field) :
    (Change.ofField table f g).filterMap lost? = [] ∧
      (Change.ofField table f g).filterMap gained? = [] := by
  unfold Change.ofField
  split_ifs <;> exact ⟨rfl, rfl⟩

theorem filterMap_ofSourceField (f : Field) :
    (Change.ofSourceField database code f).filterMap lost? = [] ∧
      (Change.ofSourceField database code f).filterMap gained? =
        if !((code.lastFieldAt? f.path).isSome || database.implies f) then [.field f.name]
        else [] := by
  unfold Change.ofSourceField
  cases code.lastFieldAt? f.path with
  | some g => exact filterMap_ofField _ f g
  | none => cases database.implies f <;> exact ⟨rfl, rfl⟩

theorem filterMap_ofTargetField (f : Field) :
    (Change.ofTargetField database code f).filterMap gained? = [] ∧
      (Change.ofTargetField database code f).filterMap lost? =
        if !((database.lastFieldAt? f.path).isSome || code.implies f) then [.field f.name]
        else [] := by
  unfold Change.ofTargetField
  cases (database.lastFieldAt? f.path).isSome || code.implies f <;> exact ⟨rfl, rfl⟩

theorem filterMap_ofSourceIndex (i : Index) :
    (Change.ofSourceIndex database code i).filterMap lost? = [] ∧
      (Change.ofSourceIndex database code i).filterMap gained? =
        if !(code.index? i.name).isSome then [.index i.name] else [] := by
  unfold Change.ofSourceIndex
  cases code.index? i.name with
  | none => exact ⟨rfl, rfl⟩
  | some j =>
    dsimp only [Option.isSome_some]
    split <;> exact ⟨rfl, rfl⟩

theorem filterMap_ofTargetIndex (i : Index) :
    (Change.ofTargetIndex database i).filterMap gained? = [] ∧
      (Change.ofTargetIndex database i).filterMap lost? =
        if !(database.index? i.name).isSome then [.index i.name] else [] := by
  unfold Change.ofTargetIndex
  cases (database.index? i.name).isSome <;> exact ⟨rfl, rfl⟩

theorem flatMap_eq_map_filter {α β : Type} {f : α → List β} {p : α → Bool} {g : α → β}
    (h : ∀ a, f a = if p a then [g a] else []) (l : List α) :
    l.flatMap f = (l.filter p).map g := by
  induction l with
  | nil => rfl
  | cons a l ih => cases hp : p a <;> simp [h, hp, ih]

/-- The changes find on each side alone what the other side lacks, in the order in which it is
declared. -/
theorem filterMap_compare :
    (database.compare code .pull).filterMap lost? = unmatched code database ∧
      (database.compare code .pull).filterMap gained? = unmatched database code := by
  have nothing {α : Type} {f : α → List Part} (h : ∀ a, f a = []) (l : List α) :
      l.flatMap f = [] := List.flatMap_eq_nil_iff.mpr fun a _ => h a
  have lost : lost? ∘ Change.describe .pull = lost? := rfl
  have gained : gained? ∘ Change.describe .pull = gained? := rfl
  rw [Table.compare, List.filterMap_map, List.filterMap_map, lost, gained]
  simp only [Change.ofTables, List.filterMap_append, List.filterMap_flatMap, filterMap_ofKind,
    List.nil_append]
  constructor
  · rw [nothing fun f => (filterMap_ofSourceField f).1, nothing fun i =>
      (filterMap_ofSourceIndex i).1, flatMap_eq_map_filter fun f => (filterMap_ofTargetField f).2,
      flatMap_eq_map_filter fun i => (filterMap_ofTargetIndex i).2, List.nil_append,
      List.append_nil, unmatched]
  · rw [nothing fun f => (filterMap_ofTargetField f).1, nothing fun i =>
      (filterMap_ofTargetIndex i).1, flatMap_eq_map_filter fun f => (filterMap_ofSourceField f).2,
      flatMap_eq_map_filter fun i => (filterMap_ofSourceIndex i).2, List.append_nil,
      List.append_nil, unmatched]

theorem of_lost? (hc : c ∈ database.compare code .pull) (hp : lost? c = some p) :
    p.DeclaredIn code ∧ p.heldBy database = false := by
  refine of_mem_unmatched ?_
  rw [← filterMap_compare.1]
  exact List.mem_filterMap.mpr ⟨c, hc, hp⟩

theorem of_gained? (hc : c ∈ database.compare code .pull) (hp : gained? c = some p) :
    p.DeclaredIn database ∧ p.heldBy code = false := by
  refine of_mem_unmatched ?_
  rw [← filterMap_compare.2]
  exact List.mem_filterMap.mpr ⟨c, hc, hp⟩

end Changes

/-! ## A merge -/

section Merge

variable {markers : Markers} {text : Text} {database code : Table} {p : Part}

/-- What a merge has done once the removals are through. -/
def afterRemovals (markers : Markers) (text : Text) (database code : Table) : Outcome :=
  let changes := database.compare code .pull
  changes.foldl (removeStep markers (roots .fieldRemoved changes)) { text }

theorem concerns_afterRemovals :
    Concerns (fun p => ∃ c ∈ database.compare code .pull, lost? c = some p) { text }
      (afterRemovals markers text database code) :=
  .foldl (concerns_removeStep markers _) _ _

theorem concerns_merge :
    Concerns (fun p => ∃ c ∈ database.compare code .pull, gained? c = some p)
      (afterRemovals markers text database code) (merge markers text database code) :=
  .trans (.foldl (concerns_addStep markers _ database) _ _) (.of_eq rfl rfl)

theorem mem_handled_foldl_removeStep {roots : List Text} {cs : List Change} {c : Change}
    (hc : c ∈ cs) (hp : lost? c = some p) (htop : p.isTopLevel = true) (o : Outcome) :
    p ∈ (cs.foldl (removeStep markers roots) o).handled := by
  induction cs generalizing o with
  | nil => cases hc
  | cons d cs ih =>
    rw [List.foldl_cons]
    rcases List.mem_cons.mp hc with rfl | hc
    · have here := mem_handled_removeStep markers roots o hp htop
      exact (Concerns.foldl (concerns_removeStep markers roots) cs _).keeps p here
    · exact ih hc _

theorem mem_handled_merge (h : p ∈ (merge markers text database code).handled) :
    ∃ c ∈ database.compare code .pull, lost? c = some p ∨ gained? c = some p := by
  -- What is handled in the end comes from an addition, or else from a removal before it.
  rcases concerns_merge.handles p h with h | ⟨c, hc, hgained⟩
  · rcases concerns_afterRemovals.handles p h with h | ⟨c, hc, hlost⟩
    · cases h
    · exact ⟨c, hc, .inl hlost⟩
  · exact ⟨c, hc, .inr hgained⟩

theorem removed_foldl_addStep (roots : List Text) (cs : List Change) (o : Outcome) :
    (cs.foldl (addStep markers roots database) o).removed = o.removed := by
  induction cs generalizing o with
  | nil => rfl
  | cons c cs ih => rw [List.foldl_cons, ih, removed_addStep]

theorem mem_removed_merge (h : p ∈ (merge markers text database code).removed) :
    p.isTopLevel = true ∧ ∃ c ∈ database.compare code .pull, lost? c = some p := by
  have kept : (merge markers text database code).removed =
      (afterRemovals markers text database code).removed := removed_foldl_addStep _ _ _
  rw [kept] at h
  rcases concerns_afterRemovals.removes p h with h | ⟨hlost, htop⟩
  · cases h
  · exact ⟨htop, hlost⟩

theorem mem_handled_merge_of_lost {c : Change} (hc : c ∈ database.compare code .pull)
    (hp : lost? c = some p) (htop : p.isTopLevel = true) :
    p ∈ (merge markers text database code).handled := by
  have taken : p ∈ (afterRemovals markers text database code).handled :=
    mem_handled_foldl_removeStep hc hp htop _
  exact concerns_merge.keeps p taken

/-- A declaration with a place of its own is commented out, or left alone with a reason, just if the
database does not have it. -/
theorem mem_handled_merge_iff (hdeclared : p.DeclaredIn code) (htop : p.isTopLevel = true) :
    p ∈ (merge markers text database code).handled ↔ p.heldBy database = false := by
  constructor
  · intro h
    obtain ⟨c, hc, hlost | hgained⟩ := mem_handled_merge h
    · exact (of_lost? hc hlost).2
    · have unheld := (of_gained? hc hgained).2
      rw [hdeclared.heldBy] at unheld
      cases unheld
  · intro h
    have unmatched := mem_unmatched hdeclared htop h
    rw [← filterMap_compare.1] at unmatched
    obtain ⟨c, hc, hlost⟩ := List.mem_filterMap.mp unmatched
    exact mem_handled_merge_of_lost hc hlost htop

theorem of_mem_removed_merge (h : p ∈ (merge markers text database code).removed) :
    p.isTopLevel = true ∧ p.DeclaredIn code ∧ p.heldBy database = false := by
  obtain ⟨htop, c, hc, hlost⟩ := mem_removed_merge h
  exact ⟨htop, of_lost? hc hlost⟩

end Merge

end SchemaDrift.Merge
