import Mathlib.Data.List.Perm.Basic
import Mathlib.Data.Prod.Basic
import SchemaDrift.Proofs.Change.About

namespace SchemaDrift

/-!
# The mirror of a comparison

A comparison the other way round finds the same differences with their sides exchanged. Both sides
are matched by key, so what they have in common is the same pairs from either side, and what is left
over on one side is added in one comparison and removed in the other.
-/

/-! ## Matching by key -/

section Match

variable {α β κ : Type} [BEq κ] {key : α → κ} {as bs : List α}

/-- The elements of two lists that have the same key, side by side. -/
def pairsBy (key : α → κ) (as bs : List α) : List (α × α) :=
  as.filterMap fun a => (bs.find? (key · == key a)).map (a, ·)

/-- The elements of a list whose key the other list does not have. -/
def unmatchedBy (key : α → κ) (as bs : List α) : List α :=
  as.filter fun a => (bs.find? (key · == key a)).isNone

theorem nodup_pairsBy (ha : (as.map key).Nodup) : (pairsBy key as bs).Nodup := by
  refine ha.of_map.filterMap fun a a' p hp hp' => ?_
  obtain ⟨b, -, rfl⟩ := Option.map_eq_some_iff.mp hp
  obtain ⟨b', -, he⟩ := Option.map_eq_some_iff.mp hp'
  exact (congrArg Prod.fst he).symm

/-- What a list gives rise to comes from its pairs with another list and from its other elements. -/
theorem flatMap_perm_pairsBy {f : α → List β} (alone : α → List β) (both : α → α → List β)
    (h : ∀ a ∈ as, f a = (bs.find? (key · == key a)).elim (alone a) (both a)) :
    (as.flatMap f).Perm ((unmatchedBy key as bs).flatMap alone ++
      (pairsBy key as bs).flatMap fun p => both p.1 p.2) := by
  induction as with
  | nil => exact .nil
  | cons a as ih =>
    obtain ⟨ha, hrest⟩ := List.forall_mem_cons.mp h
    rw [List.flatMap_cons, ha]
    have ih := ih hrest
    cases hfind : bs.find? (key · == key a) with
    | none =>
      have left : unmatchedBy key (a :: as) bs = a :: unmatchedBy key as bs := by
        simp [unmatchedBy, hfind]
      have right : pairsBy key (a :: as) bs = pairsBy key as bs := by simp [pairsBy, hfind]
      rw [left, right, List.flatMap_cons, List.append_assoc]
      exact ih.append_left _
    | some b =>
      have left : unmatchedBy key (a :: as) bs = unmatchedBy key as bs := by
        simp [unmatchedBy, hfind]
      have right : pairsBy key (a :: as) bs = (a, b) :: pairsBy key as bs := by
        simp [pairsBy, hfind]
      rw [left, right, List.flatMap_cons]
      refine (ih.append_left _).trans ?_
      rw [← List.append_assoc, ← List.append_assoc]
      exact List.perm_append_comm.append_right _

/-- What two lists give rise to: from the elements of either list alone, and from their pairs. -/
def matchBy (key : α → κ) (added removed : α → List β) (both : α → α → List β) (as bs : List α) :
    List β :=
  (unmatchedBy key as bs).flatMap added ++ (pairsBy key as bs).flatMap (fun p => both p.1 p.2) ++
    (unmatchedBy key bs as).flatMap removed

/-- A list that names only its pairs and its own elements, and another that names only what it has
alone. -/
theorem flatMap_append_perm_matchBy {f g added removed : α → List β} {both : α → α → List β}
    (hf : ∀ a ∈ as, f a = (bs.find? (key · == key a)).elim (added a) (both a))
    (hg : ∀ b ∈ bs, g b = (as.find? (key · == key b)).elim (removed b) fun _ => []) :
    (as.flatMap f ++ bs.flatMap g).Perm (matchBy key added removed both as bs) := by
  refine (flatMap_perm_pairsBy added both hf).append ?_
  have nothing : (pairsBy key bs as).flatMap (fun _ => ([] : List β)) = [] :=
    List.flatMap_eq_nil_iff.mpr fun _ _ => rfl
  have rest : (bs.flatMap g).Perm ((unmatchedBy key bs as).flatMap removed ++
      (pairsBy key bs as).flatMap fun _ => []) := flatMap_perm_pairsBy removed (fun _ _ => []) hg
  rwa [nothing, List.append_nil] at rest

variable [LawfulBEq κ]

theorem mem_pairsBy (hb : (bs.map key).Nodup) {p : α × α} :
    p ∈ pairsBy key as bs ↔ p.1 ∈ as ∧ p.2 ∈ bs ∧ key p.2 = key p.1 := by
  rw [pairsBy, List.mem_filterMap]
  constructor
  · rintro ⟨a, ha, hp⟩
    obtain ⟨b, hfind, rfl⟩ := Option.map_eq_some_iff.mp hp
    obtain ⟨hb, hkey⟩ := find?_key_eq_some hfind
    exact ⟨ha, hb, hkey⟩
  · rintro ⟨ha, hmem, hkey⟩
    refine ⟨p.1, ha, ?_⟩
    rw [← hkey, find?_key_of_mem hb hmem]
    rfl

/-- The pairs of two lists are the same from either side. -/
theorem pairsBy_perm_swap (ha : (as.map key).Nodup) (hb : (bs.map key).Nodup) :
    (pairsBy key bs as).Perm ((pairsBy key as bs).map Prod.swap) := by
  refine (List.perm_ext_iff_of_nodup (nodup_pairsBy hb)
    ((nodup_pairsBy ha).map Prod.swap_injective)).mpr fun p => ?_
  rw [mem_pairsBy ha, List.mem_map]
  constructor
  · rintro ⟨hp, hq, hkey⟩
    exact ⟨p.swap, (mem_pairsBy hb).mpr ⟨hq, hp, hkey.symm⟩, p.swap_swap⟩
  · rintro ⟨q, hq, rfl⟩
    obtain ⟨hp, hq, hkey⟩ := (mem_pairsBy hb).mp hq
    exact ⟨hq, hp, hkey.symm⟩

/-- Matching the other way round gives images of the same elements, if additions and removals are
images of each other and the image of a pair is that of the pair the other way round. -/
theorem map_matchBy_perm {γ : Type} {added removed added' removed' : α → List β}
    {both both' : α → α → List β} {m n : β → γ} (ha : (as.map key).Nodup) (hb : (bs.map key).Nodup)
    (hadded : ∀ a ∈ as, (removed' a).map m = (added a).map n)
    (hremoved : ∀ b ∈ bs, (added' b).map m = (removed b).map n)
    (hboth : ∀ a ∈ as, ∀ b ∈ bs, key b = key a → ((both' b a).map m).Perm ((both a b).map n)) :
    ((matchBy key added' removed' both' bs as).map m).Perm
      ((matchBy key added removed both as bs).map n) := by
  have alone : ((unmatchedBy key as bs).flatMap removed').map m =
      ((unmatchedBy key as bs).flatMap added).map n := by
    rw [List.map_flatMap, List.map_flatMap]
    exact List.flatMap_congr fun a ha => hadded a (List.mem_filter.mp ha).1
  have alone' : ((unmatchedBy key bs as).flatMap added').map m =
      ((unmatchedBy key bs as).flatMap removed).map n := by
    rw [List.map_flatMap, List.map_flatMap]
    exact List.flatMap_congr fun b hb => hremoved b (List.mem_filter.mp hb).1
  have pairs : (((pairsBy key bs as).flatMap fun p => both' p.1 p.2).map m).Perm
      (((pairsBy key as bs).flatMap fun p => both p.1 p.2).map n) := by
    rw [List.map_flatMap, List.map_flatMap]
    refine ((pairsBy_perm_swap ha hb).flatMap_right _).trans ?_
    rw [List.flatMap_map]
    refine List.Perm.flatMap_left _ fun p hp => ?_
    obtain ⟨hp, hq, hkey⟩ := (mem_pairsBy hb).mp hp
    exact hboth p.1 hp p.2 hq hkey
  rw [matchBy, matchBy, List.map_append, List.map_append, List.map_append, List.map_append, alone,
    alone']
  refine (pairs.append_left _).append_right _ |>.trans ?_
  refine List.perm_append_comm.trans ?_
  rw [List.append_assoc]
  exact List.perm_append_comm.append_left _

end Match

namespace Change

/-- What a change says besides the words that describe it: fields are named by their normal
paths. -/
def core (c : Change) : Change := { c with field := c.field.map Path.normal, description := [] }

/-- The same difference with source and target exchanged. -/
def mirror (c : Change) : Change :=
  { c with kind := c.kind.mirror, oldValue := c.newValue, newValue := c.oldValue }

/-- The change without a description. -/
def undescribed (c : Change) : Change := { c with description := [] }

theorem map_core_describe (direction : Direction) (cs : List Change) :
    (cs.map (describe direction)).map core = cs.map core := List.map_map

theorem map_mirror_core_describe (direction : Direction) (cs : List Change) :
    (cs.map (describe direction)).map (fun c => c.core.mirror) = cs.map fun c => c.core.mirror :=
  List.map_map

variable {s t : Table}

/-! ## Tables -/

theorem map_ite_singleton {p q : Prop} [Decidable p] [Decidable q] (hpq : p ↔ q) {c d : Change}
    (h : c.core = d.core.mirror) : (if p then [c] else []).map core =
      (if q then [d] else []).map fun c => c.core.mirror := by
  by_cases hq : q
  · rw [if_pos (hpq.mpr hq), if_pos hq, List.map_singleton, List.map_singleton, h]
  · rw [if_neg (mt hpq.mp hq), if_neg hq]
    rfl

theorem map_core_ofField (table : Text) {f g : Field} (h : g.path = f.path) :
    (ofField table g f).map core = (ofField table f g).map fun c => c.core.mirror := by
  have image (kind : Kind) (hkind : kind.mirror = kind) (old new : Option Text) :
      core { kind, table, field := g.name, oldValue := old, newValue := new } =
        mirror (core { kind, table, field := f.name, oldValue := new, newValue := old }) := by
    have names : Path.normal g.name = Path.normal f.name := h
    simp [core, mirror, names, hkind]
  unfold ofField
  simp only [List.map_append]
  rw [map_ite_singleton ne_comm (image .fieldTypeChanged rfl _ _),
    map_ite_singleton ne_comm (image .fieldDefaultChanged rfl _ _),
    map_ite_singleton ne_comm (image .fieldAssertionChanged rfl _ _)]

theorem map_core_ofKind (hname : t.name = s.name) :
    (ofKind t s).map core = (ofKind s t).map fun c => c.core.mirror := by
  unfold ofKind
  by_cases h : s.kind = t.kind
  · rw [if_pos h.symm, if_pos h]
    rfl
  · rw [if_neg (Ne.symm h), if_neg h, hname]
    rfl

/-- What a field gives rise to that only the source has. -/
def addedField (source : Table) (f : Field) : List Change :=
  if source.implies f then []
  else [{ kind := .fieldAdded, table := source.name, field := f.name, newValue := f.type }]

/-- What a field gives rise to that only the target has. -/
def removedField (table : Text) (target : Table) (f : Field) : List Change :=
  if target.implies f then []
  else [{ kind := .fieldRemoved, table, field := f.name, oldValue := f.type }]

theorem fieldChanges_perm (hs : s.Keyed) (ht : t.Keyed) :
    (s.fields.flatMap (ofSourceField s t) ++ t.fields.flatMap (ofTargetField s t)).Perm
      (matchBy Field.path (addedField s) (removedField s.name t) (ofField s.name) s.fields
        t.fields) := by
  refine flatMap_append_perm_matchBy (fun f _ => ?_) fun g _ => ?_
  · rw [ofSourceField, ht.lastFieldAt?_eq]
    cases t.fields.find? (Field.path · == f.path) <;> rfl
  · rw [ofTargetField, hs.lastFieldAt?_eq]
    cases s.fields.find? (Field.path · == g.path) <;> rfl

theorem map_core_fieldChanges (hname : t.name = s.name) (hs : s.Keyed) (ht : t.Keyed) :
    ((t.fields.flatMap (ofSourceField t s) ++ s.fields.flatMap (ofTargetField t s)).map core).Perm
      ((s.fields.flatMap (ofSourceField s t) ++ t.fields.flatMap (ofTargetField s t)).map
        fun c => c.core.mirror) := by
  refine ((fieldChanges_perm ht hs).map core).trans
    (.trans ?_ ((fieldChanges_perm hs ht).map _).symm)
  refine map_matchBy_perm hs.paths ht.paths (fun f _ => ?_) (fun g _ => ?_) fun f _ g _ hpath => ?_
  · unfold removedField addedField
    split
    · rfl
    · rw [hname]
      rfl
  · unfold removedField addedField
    split
    · rfl
    · rw [hname]
      rfl
  · rw [hname, map_core_ofField s.name hpath]

def addedIndex (source : Table) (i : Index) : List Change :=
  [{ kind := .indexAdded, table := source.name, index := i.name, newValue := i.summary }]

def removedIndex (table : Text) (i : Index) : List Change :=
  [{ kind := .indexRemoved, table, index := i.name, oldValue := i.summary }]

def modifiedIndex (table : Text) (i other : Index) : List Change :=
  if other.columns ≠ i.columns ∨ other.unique ≠ i.unique then
    [{ kind := .indexModified, table, index := i.name,
       oldValue := other.summary, newValue := i.summary }]
  else []

theorem indexChanges_perm (s t : Table) :
    (s.indexes.flatMap (ofSourceIndex s t) ++ t.indexes.flatMap (ofTargetIndex s)).Perm
      (matchBy Index.name (addedIndex s) (removedIndex s.name) (modifiedIndex s.name) s.indexes
        t.indexes) := by
  refine flatMap_append_perm_matchBy (fun i _ => ?_) fun j _ => ?_
  · rw [ofSourceIndex, Table.index?]
    cases t.indexes.find? (·.name == i.name) <;> rfl
  · rw [ofTargetIndex, Table.index?]
    cases s.indexes.find? (·.name == j.name) <;> rfl

theorem map_core_indexChanges (hname : t.name = s.name) (hs : s.Keyed) (ht : t.Keyed) :
    ((t.indexes.flatMap (ofSourceIndex t s) ++ s.indexes.flatMap (ofTargetIndex t)).map core).Perm
      ((s.indexes.flatMap (ofSourceIndex s t) ++ t.indexes.flatMap (ofTargetIndex s)).map
        fun c => c.core.mirror) := by
  refine ((indexChanges_perm t s).map core).trans (.trans ?_ ((indexChanges_perm s t).map _).symm)
  refine map_matchBy_perm hs.indexNames ht.indexNames (fun i _ => ?_) (fun j _ => ?_)
    fun i _ j _ hij => ?_
  · rw [removedIndex, addedIndex, hname]
    rfl
  · rw [removedIndex, addedIndex, hname]
    rfl
  · rw [modifiedIndex, modifiedIndex, hname, hij]
    have image (old new : Text) :
        core ⟨.indexModified, s.name, none, some i.name, some old, some new, []⟩ =
          mirror (core ⟨.indexModified, s.name, none, some i.name, some new, some old, []⟩) := rfl
    rw [map_ite_singleton (or_congr ne_comm ne_comm) (image _ _)]

theorem map_core_ofTables (hname : t.name = s.name) (hs : s.Keyed) (ht : t.Keyed) :
    ((ofTables t s).map core).Perm ((ofTables s t).map fun c => c.core.mirror) := by
  have regroup (s t : Table) : ofTables s t = ofKind s t ++
      ((s.fields.flatMap (ofSourceField s t) ++ t.fields.flatMap (ofTargetField s t)) ++
        (s.indexes.flatMap (ofSourceIndex s t) ++ t.indexes.flatMap (ofTargetIndex s))) := by
    simp only [ofTables, List.append_assoc]
  have rest := (map_core_fieldChanges hname hs ht).append (map_core_indexChanges hname hs ht)
  rw [regroup, regroup]
  simpa only [List.map_append, map_core_ofKind hname] using rest.append_left ((ofKind t s).map core)

end Change

/-! ## Schemas -/

namespace Schema

variable {s t : Schema}

def addedTable (direction : Change.Direction) (t : Table) : List Change :=
  [Change.describe direction { kind := .tableAdded, table := t.name }]

def removedTable (direction : Change.Direction) (t : Table) : List Change :=
  [Change.describe direction { kind := .tableRemoved, table := t.name }]

theorem compare_perm_matchBy (ht : t.Keyed) (direction : Change.Direction) :
    (s.compare t direction).Perm (matchBy Table.name (addedTable direction) (removedTable direction)
      (fun a b => a.compare b direction) s.tables t.tables) := by
  have common : (s.tables.flatMap fun a =>
      ((t.lastTable? a.name).map (a.compare · direction)).getD []).Perm
        ((unmatchedBy Table.name s.tables t.tables).flatMap (fun _ => []) ++
          (pairsBy Table.name s.tables t.tables).flatMap fun p => p.1.compare p.2 direction) := by
    refine flatMap_perm_pairsBy (fun _ => []) (fun a b : Table => a.compare b direction)
      fun a _ => ?_
    rw [ht.lastTable?_eq, table?]
    cases t.tables.find? (·.name == a.name) <;> rfl
  have nothing : (unmatchedBy Table.name s.tables t.tables).flatMap (fun _ => ([] : List Change)) =
      [] := List.flatMap_eq_nil_iff.mpr fun _ _ => rfl
  rw [nothing, List.nil_append] at common
  have added : (s.tables.filter fun a => (t.table? a.name).isNone).map
      (fun a => Change.describe direction { kind := .tableAdded, table := a.name }) =
        (unmatchedBy Table.name s.tables t.tables).flatMap (addedTable direction) :=
    List.map_eq_flatMap
  have removed : (t.tables.filter fun a => (s.table? a.name).isNone).map
      (fun a => Change.describe direction { kind := .tableRemoved, table := a.name }) =
        (unmatchedBy Table.name t.tables s.tables).flatMap (removedTable direction) :=
    List.map_eq_flatMap
  rw [compare, added, removed, matchBy, List.append_assoc, List.append_assoc]
  exact (List.perm_append_comm.trans (common.append_right _)).append_left _

theorem map_undescribed_compare (d d' : Change.Direction) :
    (s.compare t d).map Change.undescribed = (s.compare t d').map Change.undescribed := by
  have tables (a b : Table) : (a.compare b d).map Change.undescribed =
      (a.compare b d').map Change.undescribed := by
    rw [Table.compare, Table.compare, List.map_map, List.map_map]
    rfl
  unfold compare
  simp only [List.map_append, List.map_map, List.map_flatMap]
  refine congrArg₂ _ rfl (List.flatMap_congr fun a _ => ?_)
  cases t.lastTable? a.name with
  | none => rfl
  | some b => exact tables a b

/-- Comparing the other way round gives the mirror images of the changes, in some order. The
direction changes nothing but the descriptions, and has no bearing on whether there are changes. -/
theorem compare_perm_mirror (hs : s.Keyed) (ht : t.Keyed) (d d' : Change.Direction) :
    ((t.compare s d').map Change.core).Perm ((s.compare t d).map fun c => c.core.mirror) ∧
      (s.compare t d).map Change.undescribed = (s.compare t d').map Change.undescribed ∧
        (t.compare s d' = [] ↔ s.compare t d = []) := by
  have mirrored : ((t.compare s d').map Change.core).Perm
      ((s.compare t d).map fun c => c.core.mirror) := by
    refine ((compare_perm_matchBy hs d').map _).trans
      (.trans ?_ ((compare_perm_matchBy ht d).map _).symm)
    refine map_matchBy_perm hs.names ht.names (fun _ _ => rfl) (fun _ _ => rfl)
      fun a ha b hb hname => ?_
    rw [Table.compare, Table.compare, Change.map_core_describe, Change.map_mirror_core_describe]
    exact Change.map_core_ofTables hname (hs.tables a ha) (ht.tables b hb)
  refine ⟨mirrored, map_undescribed_compare d d', ?_⟩
  have lengths := mirrored.length_eq
  rw [List.length_map, List.length_map] at lengths
  rw [← List.length_eq_zero_iff, lengths, List.length_eq_zero_iff]

/-- A shop whose tags have elements of their own, and an edge. -/
def shop : Schema := ⟨[
  { name := "post"
    fields := [{ name := "tags", type := "array<string>" }, { name := "tags[*]", type := "string" },
      { name := "title", type := "string", default := some "'new'" }]
    indexes := [{ name := "by_title", columns := ["title"] }] },
  { name := "likes", kind := .relation }]⟩

/-- The shop with other types, another default, a unique index and another table. -/
def otherShop : Schema := ⟨[
  { name := "user", fields := [{ name := "email", type := "string" }] },
  { name := "post", kind := .view
    fields := [{ name := "title", type := "int" }, { name := "tags", type := "set<int>" },
      { name := "tags.*", type := "int", assertion := some "$value > 0" }]
    indexes := [{ name := "by_title", columns := ["title"], unique := true }] }]⟩

theorem compare_perm_mirror_shop :
    (shop.Keyed ∧ otherShop.Keyed) ∧
      Change.describe .push { kind := .tableAdded, table := "likes" } ∈
        shop.compare otherShop .push ∧
      ((otherShop.compare shop .pull).map Change.core).Perm
        ((shop.compare otherShop .push).map fun c => c.core.mirror) := by
  have keyed : shop.Keyed := by decide +kernel
  have otherKeyed : otherShop.Keyed := by decide +kernel
  refine ⟨⟨keyed, otherKeyed⟩, ?_, (compare_perm_mirror keyed otherKeyed .push .pull).1⟩
  have likes : { name := "likes", kind := .relation } ∈ shop.tables := by simp [shop]
  exact Change.mem_compare.mpr (.inl ⟨_, likes, by decide +kernel, rfl⟩)

end Schema

end SchemaDrift
