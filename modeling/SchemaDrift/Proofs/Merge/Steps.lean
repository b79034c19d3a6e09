import SchemaDrift.Proofs.Merge.Inventory

namespace SchemaDrift.Merge

open Code

/-!
# Tidy files under merges

A file is tidy if its inventory has every declaration once and lists just the functions that stand
in it. Each change that takes out or adds a field of the table itself or an index does the same to a
tidy file, which stays tidy. Nothing but fields inside others is left alone.
-/

variable {names : Text → Prop} {v : Inventory} {name marker : Text} {p q : Part} {markers : Markers}
  {o : Outcome} {c : Change} {cs : List Change} {database : Table}

/-- Whether the part is a field of the table itself, or an index with one of these names. -/
def Part.Known (names : Text → Prop) : Part → Prop
  | .field name => Path.isTopLevel name = true
  | .index name => names name

theorem Part.Known.isTopLevel (h : p.Known names) : p.isTopLevel = true := by
  cases p with
  | field name => exact h
  | index name => rfl

/-- Whether the indexes with these names have different functions. -/
def Apart (names : Text → Prop) : Prop :=
  ∀ n m, names n → names m → Source.functionOf n = Source.functionOf m → n = m

theorem Apart.functionOf_eq_iff (h : Apart names) {n m : Text} (hn : names n) (hm : names m) :
    Source.functionOf n = Source.functionOf m ↔ n = m := ⟨h n m hn hm, fun he => he ▸ rfl⟩

/-- Whether an inventory has each field of the table itself and each function once, and lists just
the functions that it has, which are those of some indexes. -/
structure Inventory.Tidy (names : Text → Prop) (v : Inventory) : Prop where
  fields : (v.fields.filter Path.isTopLevel).Nodup
  functions : v.functions.Nodup
  listed : ∃ fs, v.elements = (("model" : Text) :: fs).map Source.definition ∧ fs.Perm v.functions
  known : ∀ f ∈ v.functions, ∃ n, names n ∧ Source.functionOf n = f

/-! ## Removals -/

theorem normal_ne_of_ne {a b : Text} (ha : Path.isTopLevel a = true) (h : b ≠ a) :
    Path.normal b ≠ Path.normal a := by
  cases hb : Path.isTopLevel b with
  | false => exact (Path.normal_ne_of_isTopLevel ha hb).symm
  | true =>
    rw [Path.normal_eq_self (Path.isTopLevel_eq_true_iff.mp ha).2,
      Path.normal_eq_self (Path.isTopLevel_eq_true_iff.mp hb).2]
    exact h

theorem normal_eq_iff {a b : Text} (ha : Path.isTopLevel a = true) :
    Path.normal b = Path.normal a ↔ b = a :=
  ⟨fun h => by_contra fun hne => normal_ne_of_ne ha hne h, fun h => h ▸ rfl⟩

theorem Inventory.has_field_iff (h : Path.isTopLevel name = true) :
    v.Has (.field name) ↔ name ∈ v.fields := by
  simp only [Has, normal_eq_iff h, exists_eq_right]

/-- Without an element that it has once, a list has its other elements. -/
theorem mem_append_iff_of_notMem {α : Type} {as bs : List α} {a b : α} (h : a ∉ as ++ bs) :
    b ∈ as ++ bs ↔ b ∈ as ++ a :: bs ∧ b ≠ a := by
  constructor
  · intro hb
    exact ⟨(List.sublist_cons_self a bs).append_left as |>.subset hb, fun he => h (he ▸ hb)⟩
  · rintro ⟨hb, hne⟩
    rw [List.mem_append, List.mem_cons] at hb
    exact List.mem_append.mpr (hb.imp_right fun hb => hb.resolve_left hne)

/-- The list around the first element that is taken out of it. -/
theorem exists_eraseP_eq {α : Type} {q : α → Bool} {l : List α} {a : α} (h : a ∈ l)
    (hq : ∀ b ∈ l, q b = true ↔ b = a) :
    ∃ as bs, l = as ++ a :: bs ∧ l.eraseP q = as ++ bs := by
  obtain ⟨b, as, bs, -, hb, hl, herase⟩ := List.exists_of_eraseP h ((hq a h).mpr rfl)
  obtain rfl := (hq b (by simp [hl])).mp hb
  exact ⟨as, bs, hl, herase⟩

namespace Inventory.Tidy

theorem lose_field (h : v.Tidy names) (hp : Path.isTopLevel name = true)
    (hhas : v.Has (.field name)) : (v.lose (.field name)).Tidy names ∧
      ∀ q : Part, q.Known names → ((v.lose (.field name)).Has q ↔ v.Has q ∧ q ≠ .field name) := by
  rw [has_field_iff hp] at hhas
  obtain ⟨as, bs, hl, herase⟩ := exists_eraseP_eq
    (q := fun n => decide (Path.normal n = Path.normal name)) hhas
    fun n _ => by rw [decide_eq_true_iff, normal_eq_iff hp]
  have fields : (v.lose (.field name)).fields = as ++ bs := herase
  have nodup := h.fields
  rw [hl, List.filter_append, List.filter_cons_of_pos hp, List.nodup_middle, ← List.filter_append,
    List.nodup_cons, List.mem_filter] at nodup
  have gone : name ∉ as ++ bs := fun hmem => nodup.1 ⟨hmem, hp⟩
  refine ⟨⟨by rw [fields]; exact nodup.2, h.functions, h.listed, h.known⟩, fun q hq => ?_⟩
  cases q with
  | field n =>
    rw [has_field_iff hq, has_field_iff hq, fields, hl, Ne, Part.field.injEq]
    exact mem_append_iff_of_notMem gone
  | index n => exact ⟨fun hmem => ⟨hmem, Part.noConfusion⟩, fun hmem => hmem.1⟩

theorem lose_index (h : v.Tidy names) (hapart : Apart names) (hp : names name)
    (hhas : v.Has (.index name)) : (v.lose (.index name)).Tidy names ∧
      ∀ q : Part, q.Known names → ((v.lose (.index name)).Has q ↔ v.Has q ∧ q ≠ .index name) := by
  obtain ⟨as, bs, hl, herase⟩ := exists_eraseP_eq
    (q := fun f => decide (f = Source.functionOf name)) hhas fun f _ => decide_eq_true_iff
  obtain ⟨fs, helements, hperm⟩ := h.listed
  have functions : (v.lose (.index name)).functions = as ++ bs := herase
  have nodup := h.functions
  rw [hl, List.nodup_middle, List.nodup_cons] at nodup
  have sorted : ∀ f ∈ as ++ bs, f ∈ v.functions := fun f hf => by
    rw [hl]
    exact (List.sublist_cons_self _ bs).append_left as |>.subset hf
  refine ⟨⟨h.fields, by rw [functions]; exact nodup.2, ?_, ?_⟩, fun q hq => ?_⟩
  · -- The first element with the call of the function is its definition.
    have called : ∀ g ∈ ("model" : Text) :: fs,
        decide (callOf (Source.functionOf name) <+: Source.definition g) = true ↔
          g = Source.functionOf name := by
      intro g hg
      have ident : IsIdent g := by
        rcases List.mem_cons.mp hg with rfl | hg
        · exact isIdent_model
        · obtain ⟨n, -, rfl⟩ := h.known g (hperm.subset hg)
          exact isIdent_functionOf n
      rw [decide_eq_true_iff, prefix_definition_iff (isIdent_functionOf name) ident]
    have first : ¬ decide (callOf (Source.functionOf name) <+: Source.definition "model") = true :=
      fun hm => Source.functionOf_ne_model name ((called "model" List.mem_cons_self).mp hm).symm
    obtain ⟨xs, ys, hfs, hfs'⟩ := exists_eraseP_eq (l := fs) (hperm.symm.subset hhas)
      fun g hg => called g (List.mem_cons_of_mem _ hg)
    refine ⟨xs ++ ys, ?_, ?_⟩
    · change v.elements.eraseP _ = _
      rw [helements, List.eraseP_map, ← hfs']
      exact congrArg (List.map Source.definition) (List.eraseP_cons_of_neg first)
    · rw [functions]
      rw [hfs, hl] at hperm
      exact (List.perm_middle.symm.trans (hperm.trans List.perm_middle)).cons_inv
  · rw [functions]
    exact fun f hf => h.known f (sorted f hf)
  · cases q with
    | field n => exact ⟨fun hmem => ⟨hmem, Part.noConfusion⟩, fun hmem => hmem.1⟩
    | index n =>
      change Source.functionOf n ∈ (v.lose (.index name)).functions ↔
        Source.functionOf n ∈ v.functions ∧ Part.index n ≠ .index name
      rw [functions, hl, Ne, Part.index.injEq, ← hapart.functionOf_eq_iff hq hp]
      exact mem_append_iff_of_notMem nodup.1

/-- Without a declaration, a tidy inventory has its other ones. -/
theorem lose (h : v.Tidy names) (hapart : Apart names) (hp : p.Known names) (hhas : v.Has p) :
    (v.lose p).Tidy names ∧ ∀ q : Part, q.Known names → ((v.lose p).Has q ↔ v.Has q ∧ q ≠ p) := by
  cases p with
  | field name => exact h.lose_field hp hhas
  | index name => exact h.lose_index hapart hp hhas

/-- With another declaration, a tidy inventory has its own ones and that. -/
theorem gain (h : v.Tidy names) (hapart : Apart names) (hp : p.Known names) (hnot : ¬ v.Has p)
    (hpath : ∀ n, p = .field n → IsPath n) : (v.gain p).Tidy names ∧
      ∀ q : Part, q.Known names → ((v.gain p).Has q ↔ v.Has q ∨ q = p) := by
  cases p with
  | field name =>
    have fields : (v.gain (.field name)).fields = v.fields ++ [name] := by
      change v.fields ++ [name.flatMap Text.escape] = _
      rw [(hpath name rfl).flatMap_escape]
    rw [has_field_iff hp] at hnot
    refine ⟨⟨?_, h.functions, h.listed, h.known⟩, fun q hq => ?_⟩
    · rw [fields, List.filter_append, List.filter_cons_of_pos hp, List.filter_nil,
        List.nodup_append_comm]
      exact List.nodup_cons.mpr ⟨fun hmem => hnot (List.mem_filter.mp hmem).1, h.fields⟩
    · cases q with
      | field n =>
        rw [has_field_iff hq, has_field_iff hq, fields, List.mem_append, List.mem_singleton,
          Part.field.injEq]
      | index n => exact ⟨.inl, fun hmem => hmem.resolve_right Part.noConfusion⟩
  | index name =>
    obtain ⟨fs, helements, hperm⟩ := h.listed
    refine ⟨⟨h.fields, ?_, ⟨fs ++ [Source.functionOf name], ?_, hperm.append_right _⟩, ?_⟩,
      fun q hq => ?_⟩
    · change (v.functions ++ [Source.functionOf name]).Nodup
      rw [List.nodup_append_comm]
      exact List.nodup_cons.mpr ⟨hnot, h.functions⟩
    · change v.elements ++ [Source.definition (Source.functionOf name)] = _
      rw [helements, ← List.cons_append, List.map_append]
      rfl
    · exact List.forall_mem_append.mpr ⟨h.known, by simpa using ⟨name, hp, rfl⟩⟩
    · cases q with
      | field n => exact ⟨.inl, fun hmem => hmem.resolve_right Part.noConfusion⟩
      | index n =>
        change Source.functionOf n ∈ v.functions ++ [Source.functionOf name] ↔
          Source.functionOf n ∈ v.functions ∨ Part.index n = .index name
        rw [List.mem_append, List.mem_singleton, Part.index.injEq,
          hapart.functionOf_eq_iff hq hp]

end Inventory.Tidy

/-! ## Single changes -/

/-- Whether a step leaves nothing alone but fields inside others. -/
def SkipsNested (o o' : Outcome) : Prop :=
  ∀ s ∈ o'.skipped, s ∈ o.skipped ∨ ∃ name, s.part = .field name ∧ Path.isTopLevel name = false

theorem SkipsNested.refl (o : Outcome) : SkipsNested o o := fun _ => .inl

theorem SkipsNested.trans {o' o'' : Outcome} (h : SkipsNested o o') (h' : SkipsNested o' o'') :
    SkipsNested o o'' := fun s hs => (h' s hs).elim (h s) .inr

theorem skipsNested_passOver (roots : List Text) (o : Outcome) {name : Text}
    (h : Path.isTopLevel name = false) : SkipsNested o (passOver roots o name) := by
  unfold passOver
  split
  · exact .refl o
  · intro s hs
    rcases List.mem_append.mp hs with hs | hs
    · exact .inl hs
    · exact .inr ⟨name, by rw [List.mem_singleton.mp hs], h⟩

/-- Whether the inventory of a text becomes a tidy one by a step, with these parts declared. -/
def Becomes (names : Text → Prop) (parts : Part → Prop) (o o' : Outcome) : Prop :=
  ∃ v, Holds o'.text v ∧ v.Tidy names ∧ (∀ p : Part, p.Known names → (v.Has p ↔ parts p)) ∧
    SkipsNested o o'

theorem becomes_of_same {parts : Part → Prop} {o' : Outcome} (ho : Holds o.text v)
    (h : v.Tidy names) (hp : ∀ p : Part, p.Known names → (v.Has p ↔ parts p))
    (htext : o'.text = o.text) (hskips : SkipsNested o o') : Becomes names parts o o' :=
  ⟨v, htext ▸ ho, h, hp, hskips⟩

theorem ne_of_not_isTopLevel {q : Part} (hq : q.isTopLevel = false) (hp : p.Known names) :
    p ≠ q := by
  rintro rfl
  rw [hp.isTopLevel] at hq
  cases hq

/-- What a change finds in the code alone is taken out of the inventory. -/
theorem becomes_removeStep (roots : List Text) (ho : Holds o.text v) (h : v.Tidy names)
    (hapart : Apart names) (hm : '\n' ∉ markers.removed)
    (hc : ∀ p, lost? c = some p → p.isTopLevel = true → p.Known names ∧ v.Has p) :
    Becomes names (fun p => v.Has p ∧ lost? c ≠ some p) o (removeStep markers roots o c) := by
  cases hlost : lost? c with
  | none =>
    rw [removeStep_of_lost_none hlost]
    exact becomes_of_same ho h (by simp) rfl (.refl o)
  | some p =>
    cases htop : p.isTopLevel with
    | true =>
      obtain ⟨known, has⟩ := hc p hlost htop
      obtain ⟨t', step, holds⟩ := ho.removeStep_of_has hlost htop has hm roots
      obtain ⟨tidy, hparts⟩ := h.lose hapart known has
      rw [step]
      refine ⟨_, by rwa [o.text_removing], tidy, fun q hq => ?_, ?_⟩
      · simp [hparts q hq, eq_comm]
      · cases p <;> exact .refl o
    | false =>
      have away (q : Part) (hq : q.Known names) : q ≠ p := ne_of_not_isTopLevel htop hq
      cases p with
      | index name => cases htop
      | field name =>
        rw [removeStep_eq_takeField hlost, takeField,
          if_neg (by simp [show Path.isTopLevel name = false from htop])]
        exact becomes_of_same ho h (fun q hq => by simp [(away q hq).symm])
          (text_passOver roots o name) (skipsNested_passOver roots o htop)

/-- What a change finds in the database alone is put into the inventory. -/
theorem becomes_addStep (roots : List Text) (ho : Holds o.text v) (h : v.Tidy names)
    (hapart : Apart names) (hm : '\n' ∉ markers.added)
    (hpaths : ∀ f ∈ database.fields, IsPath f.name)
    (hmanaged : ∀ i ∈ database.indexes, i.isDetectionOnly = false)
    (hc : ∀ p, gained? c = some p → p.DeclaredIn database ∧
      (p.isTopLevel = true → p.Known names ∧ ¬ v.Has p)) :
    Becomes names (fun p => v.Has p ∨ gained? c = some p) o
      (addStep markers roots database o c) := by
  cases hgained : gained? c with
  | none =>
    have step : (addStep markers roots database o c).text = o.text ∧
        (addStep markers roots database o c).skipped = o.skipped := by
      rcases addStep_of_gained_none hgained o with step | step <;> rw [step] <;> exact ⟨rfl, rfl⟩
    exact becomes_of_same ho h (by simp) step.1 fun s hs => .inl (step.2 ▸ hs)
  | some p =>
    obtain ⟨declared, fresh⟩ := hc p hgained
    -- The outcome with the part added is the one of a tidy inventory with that part.
    have added {t' : Text} (htop : p.isTopLevel = true) (hpath : ∀ n, p = .field n → IsPath n)
        (holds : Holds t' (v.gain p)) :
        Becomes names (fun q => v.Has q ∨ some p = some q) o (o.adding t' p) := by
      obtain ⟨known, hnot⟩ := fresh htop
      obtain ⟨tidy, hparts⟩ := h.gain hapart known hnot hpath
      refine ⟨_, by rwa [o.text_adding], tidy, fun q hq => ?_, ?_⟩
      · simp [hparts q hq, eq_comm]
      · cases p <;> exact .refl o
    cases p with
    | field name =>
      obtain ⟨g, hg, step⟩ := exists_addStep_eq_putField hgained declared
      obtain ⟨hmem, rfl⟩ := find?_key_eq_some hg
      rw [step]
      cases htop : Path.isTopLevel g.name with
      | false =>
        have away (q : Part) (hq : q.Known names) : q ≠ .field g.name :=
          ne_of_not_isTopLevel htop hq
        rw [putField, if_neg (by simp [htop])]
        exact becomes_of_same ho h (fun q hq => by simp [(away q hq).symm])
          (text_passOver roots o g.name) (skipsNested_passOver roots o htop)
      | true =>
        obtain ⟨t', hput, holds⟩ := ho.putField hmem htop hm roots
        rw [hput]
        exact added htop (fun n hn => Part.field.inj hn ▸ hpaths g hmem) holds
    | index name =>
      obtain ⟨i, hi, step⟩ := exists_addStep_eq_putIndex hgained declared
      obtain ⟨hmem, rfl⟩ := find?_key_eq_some hi
      obtain ⟨t', hput, holds⟩ := ho.putIndex (hmanaged i hmem) (fresh rfl).2 hm
      rw [step, hput]
      exact added rfl (fun n hn => Part.noConfusion hn) holds

/-! ## All changes of a merge -/

theorem mem_filterMap_cons {part? : Change → Option Part} :
    p ∈ (c :: cs).filterMap part? ↔ part? c = some p ∨ p ∈ cs.filterMap part? := by
  rw [List.filterMap_cons]
  split
  · rename_i hnone
    simp [hnone]
  · rename_i q hq
    rw [List.mem_cons, hq, Option.some.injEq, eq_comm]

theorem nodup_filterMap_cons {part? : Change → Option Part}
    (h : ((c :: cs).filterMap part?).Nodup) :
    (cs.filterMap part?).Nodup ∧ ∀ p ∈ cs.filterMap part?, part? c ≠ some p := by
  rw [List.filterMap_cons] at h
  split at h
  · rename_i hnone
    exact ⟨h, fun p _ => by simp [hnone]⟩
  · rename_i q hq
    obtain ⟨hnot, hrest⟩ := List.nodup_cons.mp h
    refine ⟨hrest, fun p hp he => hnot ?_⟩
    rw [hq] at he
    exact Option.some.inj he ▸ hp

theorem becomes_foldl_removeStep (roots : List Text) (ho : Holds o.text v) (h : v.Tidy names)
    (hapart : Apart names) (hm : '\n' ∉ markers.removed) (hn : (cs.filterMap lost?).Nodup)
    (hc : ∀ p ∈ cs.filterMap lost?, p.isTopLevel = true → p.Known names ∧ v.Has p) :
    Becomes names (fun p => v.Has p ∧ p ∉ cs.filterMap lost?) o
      (cs.foldl (removeStep markers roots) o) := by
  induction cs generalizing o v with
  | nil => exact becomes_of_same ho h (by simp) rfl (.refl o)
  | cons c cs ih =>
    obtain ⟨hrest, hapart'⟩ := nodup_filterMap_cons hn
    obtain ⟨v₁, ho₁, tidy, hparts, hskips⟩ := becomes_removeStep roots ho h hapart hm
      fun p hp => hc p (mem_filterMap_cons.mpr (.inl hp))
    have later : ∀ p ∈ cs.filterMap lost?, p.isTopLevel = true → p.Known names ∧ v₁.Has p := by
      intro p hp htop
      obtain ⟨known, declared⟩ := hc p (mem_filterMap_cons.mpr (.inr hp)) htop
      exact ⟨known, (hparts p known).mpr ⟨declared, hapart' p hp⟩⟩
    obtain ⟨v₂, ho₂, tidy₂, hparts₂, hskips₂⟩ := ih ho₁ tidy hrest later
    refine ⟨v₂, ho₂, tidy₂, fun p hp => ?_, hskips.trans hskips₂⟩
    calc v₂.Has p
      _ ↔ v₁.Has p ∧ p ∉ cs.filterMap lost? := hparts₂ p hp
      _ ↔ (v.Has p ∧ lost? c ≠ some p) ∧ p ∉ cs.filterMap lost? :=
        and_congr_left' (hparts p hp)
      _ ↔ v.Has p ∧ p ∉ (c :: cs).filterMap lost? := by
        rw [mem_filterMap_cons, not_or, and_assoc]

theorem becomes_foldl_addStep (roots : List Text) (ho : Holds o.text v) (h : v.Tidy names)
    (hapart : Apart names) (hm : '\n' ∉ markers.added)
    (hpaths : ∀ f ∈ database.fields, IsPath f.name)
    (hmanaged : ∀ i ∈ database.indexes, i.isDetectionOnly = false)
    (hn : (cs.filterMap gained?).Nodup)
    (hc : ∀ p ∈ cs.filterMap gained?, p.DeclaredIn database ∧
      (p.isTopLevel = true → p.Known names ∧ ¬ v.Has p)) :
    Becomes names (fun p => v.Has p ∨ p ∈ cs.filterMap gained?) o
      (cs.foldl (addStep markers roots database) o) := by
  induction cs generalizing o v with
  | nil => exact becomes_of_same ho h (by simp) rfl (.refl o)
  | cons c cs ih =>
    obtain ⟨hrest, hapart'⟩ := nodup_filterMap_cons hn
    obtain ⟨v₁, ho₁, tidy, hparts, hskips⟩ := becomes_addStep roots ho h hapart hm hpaths hmanaged
      fun p hp => hc p (mem_filterMap_cons.mpr (.inl hp))
    have later : ∀ p ∈ cs.filterMap gained?, p.DeclaredIn database ∧
        (p.isTopLevel = true → p.Known names ∧ ¬ v₁.Has p) := by
      intro p hp
      obtain ⟨declared, fresh⟩ := hc p (mem_filterMap_cons.mpr (.inr hp))
      refine ⟨declared, fun htop => ⟨(fresh htop).1, fun hd => ?_⟩⟩
      exact ((hparts p (fresh htop).1).mp hd).elim (fresh htop).2 (hapart' p hp)
    obtain ⟨v₂, ho₂, tidy₂, hparts₂, hskips₂⟩ := ih ho₁ tidy hrest later
    refine ⟨v₂, ho₂, tidy₂, fun p hp => ?_, hskips.trans hskips₂⟩
    calc v₂.Has p
      _ ↔ v₁.Has p ∨ p ∈ cs.filterMap gained? := hparts₂ p hp
      _ ↔ (v.Has p ∨ gained? c = some p) ∨ p ∈ cs.filterMap gained? :=
        or_congr_left (hparts p hp)
      _ ↔ v.Has p ∨ p ∈ (c :: cs).filterMap gained? := by rw [mem_filterMap_cons, or_assoc]

end SchemaDrift.Merge
