import Mathlib.Data.List.Forall2
import Mathlib.Data.List.Nodup
import SchemaDrift.Schema.Table

namespace SchemaDrift

/-!
# Putting elements in place

Elements with keys of their own are put behind each other, and a change of the element with a key
leaves the others alone.
-/

theorem exists_mem_of_forall₂ {α β : Type} {R : α → β → Prop} {as : List α} {bs : List β}
    (h : List.Forall₂ R as bs) {b : β} (hb : b ∈ bs) : ∃ a ∈ as, R a b := by
  induction h with
  | nil => cases hb
  | @cons a _ as _ hab _ ih =>
    rcases List.mem_cons.mp hb with rfl | hb
    · exact ⟨a, List.mem_cons_self, hab⟩
    · obtain ⟨a', ha', hab'⟩ := ih hb
      exact ⟨a', List.mem_cons_of_mem a ha', hab'⟩

section Put

variable {α κ : Type}

theorem putBy_of_forall {same : α → Bool} {l : List α} (a : α) (h : ∀ b ∈ l, same b = false) :
    putBy same a l = l ++ [a] :=
  putBy_of_find?_eq_none a (List.find?_eq_none.mpr fun b hb => by simp [h b hb])

theorem modifyBy_append {same : α → Bool} {f : α → α} {pre : List α} {a : α}
    (hpre : ∀ b ∈ pre, same b = false) (ha : same a = true) (post : List α) :
    modifyBy same f (pre ++ a :: post) = pre ++ f a :: post := by
  induction pre with
  | nil => rw [List.nil_append, modifyBy, if_pos ha, List.nil_append]
  | cons b pre ih =>
    have hb : ¬same b = true := by simp [hpre b List.mem_cons_self]
    rw [List.cons_append, modifyBy, if_neg hb, ih fun c hc => hpre c (List.mem_cons_of_mem b hc)]
    rfl

theorem map_modifyBy {key : α → κ} {f : α → α} (same : α → Bool) (h : ∀ a, key (f a) = key a)
    (l : List α) : (modifyBy same f l).map key = l.map key := by
  induction l with
  | nil => rfl
  | cons a l ih =>
    rw [modifyBy]
    split
    · rw [List.map_cons, List.map_cons, h]
    · rw [List.map_cons, List.map_cons, ih]

theorem flatMap_eq_of_nodup {β : Type} {key : α → κ} {l : List α} (hn : (l.map key).Nodup)
    {f : α → List β} {a : α} (ha : a ∈ l) (h : ∀ b ∈ l, key b ≠ key a → f b = []) :
    l.flatMap f = f a := by
  obtain ⟨pre, post, rfl⟩ := List.append_of_mem ha
  have nothing (m : List α) (hm : ∀ b ∈ m, b ∈ pre ++ a :: post ∧ key b ≠ key a) :
      m.flatMap f = [] := List.flatMap_eq_nil_iff.mpr fun b hb => h b (hm b hb).1 (hm b hb).2
  rw [List.map_append, List.map_cons, List.nodup_middle, List.nodup_cons, ← List.map_append] at hn
  have other (b : α) (hb : b ∈ pre ++ post) : key b ≠ key a := fun he =>
    hn.1 (he ▸ List.mem_map_of_mem hb)
  rw [List.flatMap_append, List.flatMap_cons,
    nothing pre fun b hb => ⟨by simp [hb], other b (by simp [hb])⟩,
    nothing post fun b hb => ⟨by simp [hb], other b (by simp [hb])⟩, List.append_nil,
    List.nil_append]

theorem filterMap_sublist_map {key : α → κ} {l : List α} {f : α → Option κ}
    (h : ∀ a ∈ l, ∀ k ∈ f a, k = key a) : (l.filterMap f).Sublist (l.map key) := by
  induction l with
  | nil => exact List.Sublist.slnil
  | cons a l ih =>
    have rest := ih fun b hb => h b (List.mem_cons_of_mem a hb)
    rw [List.filterMap_cons, List.map_cons]
    cases hf : f a with
    | none => exact rest.cons (key a)
    | some k =>
      rw [h a List.mem_cons_self k hf]
      exact rest.cons_cons (key a)

theorem mem_of_mem_putBy {same : α → Bool} {a b : α} {l : List α} (h : b ∈ putBy same a l) :
    b = a ∨ b ∈ l := by
  induction l with
  | nil => exact .inl (List.mem_singleton.mp h)
  | cons c l ih =>
    rw [putBy] at h
    split at h
    · rcases List.mem_cons.mp h with h | h
      · exact .inl h
      · exact .inr (List.mem_cons_of_mem c h)
    · rcases List.mem_cons.mp h with rfl | h
      · exact .inr List.mem_cons_self
      · exact (ih h).imp_right (List.mem_cons_of_mem c)

variable [BEq κ] [LawfulBEq κ] {key : α → κ}

theorem modifyBy_eq_map {l : List α} (hn : (l.map key).Nodup) (k : κ)
    (f : α → α) : modifyBy (key · == k) f l = l.map fun a => if key a == k then f a else a := by
  induction l with
  | nil => rfl
  | cons a l ih =>
    obtain ⟨ha, hn⟩ := List.nodup_cons.mp hn
    rw [modifyBy, List.map_cons]
    by_cases h : (key a == k) = true
    · have others : l.map (fun b => if key b == k then f b else b) = l := by
        refine (List.map_congr_left fun b hb => if_neg fun he => ha ?_).trans (List.map_id l)
        rw [eq_of_beq h, ← eq_of_beq he]
        exact List.mem_map_of_mem hb
      rw [if_pos h, if_pos h, others]
    · rw [if_neg h, if_neg h, ih hn]

theorem putBy_of_not_mem {a : α} {l : List α} (h : key a ∉ l.map key) :
    putBy (key · == key a) a l = l ++ [a] := by
  apply putBy_of_forall a
  intro b hb
  have hne : key b ≠ key a := fun he => h (List.mem_map.mpr ⟨b, hb, he⟩)
  simpa using hne

theorem foldl_putBy {as l : List α} (h : ((l ++ as).map key).Nodup) :
    as.foldl (fun l a => putBy (key · == key a) a l) l = l ++ as := by
  induction as generalizing l with
  | nil => rw [List.foldl_nil, List.append_nil]
  | cons a as ih =>
    have hnot : key a ∉ l.map key := by
      intro hm
      rw [List.map_append, List.map_cons] at h
      exact (List.nodup_append.mp h).2.2 _ hm _ List.mem_cons_self rfl
    have hrest : ((l ++ [a] ++ as).map key).Nodup := by simpa using h
    rw [List.foldl_cons, putBy_of_not_mem hnot, ih hrest, List.append_assoc, List.singleton_append]

/-! ## What is found under a key -/

theorem find?_key_eq_some {l : List α} {k : κ} {a : α} (h : l.find? (key · == k) = some a) :
    a ∈ l ∧ key a = k := ⟨List.mem_of_find?_eq_some h, by simpa using List.find?_some h⟩

theorem find?_key_eq_none {l : List α} {k : κ} : l.find? (key · == k) = none ↔ k ∉ l.map key := by
  simp [List.find?_eq_none]

theorem find?_key_isSome_iff {l : List α} {k : κ} :
    (l.find? (key · == k)).isSome = true ↔ k ∈ l.map key := by
  rw [← Option.ne_none_iff_isSome, ne_eq, find?_key_eq_none, not_not]

/-- An element with a key of its own is what is found under its key. -/
theorem find?_key_of_mem {l : List α} (hn : (l.map key).Nodup) {a : α} (ha : a ∈ l) :
    l.find? (key · == key a) = some a := by
  cases h : l.find? (key · == key a) with
  | none => exact absurd (List.mem_map_of_mem ha) (find?_key_eq_none.mp h)
  | some b =>
    obtain ⟨hb, hk⟩ := find?_key_eq_some h
    rw [List.inj_on_of_nodup_map hn hb ha hk]

/-- Where keys are different, the last element under a key is the first. -/
theorem find?_reverse {l : List α} (hn : (l.map key).Nodup) (k : κ) :
    l.reverse.find? (key · == k) = l.find? (key · == k) := by
  cases h : l.find? (key · == k) with
  | none =>
    refine find?_key_eq_none.mpr fun hm => find?_key_eq_none.mp h ?_
    rwa [List.map_reverse, List.mem_reverse] at hm
  | some a =>
    obtain ⟨ha, rfl⟩ := find?_key_eq_some h
    refine find?_key_of_mem ?_ (List.mem_reverse.mpr ha)
    rwa [List.map_reverse, List.nodup_reverse]

theorem find?_putBy_self {k : κ} {a : α} (l : List α) (ha : key a = k) :
    (putBy (key · == k) a l).find? (key · == k) = some a := find?_putBy l (by simp [ha])

theorem find?_putBy_of_ne {k k' : κ} {a : α} (l : List α) (ha : key a = k) (hk : k' ≠ k) :
    (putBy (key · == k) a l).find? (key · == k') = l.find? (key · == k') := by
  have hne : (key a == k') = false := by simpa [ha] using Ne.symm hk
  induction l with
  | nil => simp [putBy, hne]
  | cons b l ih =>
    rw [putBy]
    split
    · rename_i hb
      have hb : (key b == k') = false := by simpa [eq_of_beq hb] using Ne.symm hk
      rw [List.find?_cons, hne, List.find?_cons, hb]
    · rw [List.find?_cons, List.find?_cons, ih]

theorem map_key_putBy {k : κ} {a : α} (l : List α) (ha : key a = k) :
    (putBy (key · == k) a l).map key = if k ∈ l.map key then l.map key else l.map key ++ [k] := by
  induction l with
  | nil => simp [putBy, ha]
  | cons b l ih =>
    rw [putBy]
    by_cases hb : key b = k
    · simp [ha, hb]
    · have hb' : (key b == k) = false := by simpa using hb
      rw [if_neg (by simp [hb']), List.map_cons, ih]
      by_cases hm : k ∈ l.map key
      · have hmem : k ∈ (b :: l).map key := by
          rw [List.map_cons]
          exact List.mem_cons_of_mem _ hm
        rw [if_pos hm, if_pos hmem, List.map_cons]
      · have hnot : k ∉ (b :: l).map key := by
          rw [List.map_cons, List.mem_cons, not_or]
          exact ⟨Ne.symm hb, hm⟩
        rw [if_neg hm, if_neg hnot, List.map_cons, List.cons_append]

theorem nodup_putBy {k : κ} {a : α} {l : List α} (hn : (l.map key).Nodup) (ha : key a = k) :
    ((putBy (key · == k) a l).map key).Nodup := by
  rw [map_key_putBy l ha]
  split
  · exact hn
  · rename_i hk
    exact hn.append (List.nodup_singleton k) (by simpa using hk)

theorem find?_filter_key (l : List α) (q : κ → Bool) (k : κ) :
    (l.filter fun a => q (key a)).find? (key · == k) =
      if q k then l.find? (key · == k) else none := by
  rw [List.find?_filter]
  split
  · rename_i hq
    refine congrFun (congrArg List.find? (funext fun a => ?_)) l
    by_cases h : key a = k
    · simp [h, hq]
    · simp [h]
  · rename_i hq
    apply List.find?_eq_none.mpr
    intro a _ ha
    have hk : q (key a) = true ∧ key a = k := by simpa using ha
    rw [hk.2] at hk
    exact hq hk.1

end Put

namespace Table

theorem foldl_addField {t : Table} {fs : List Field} (h : ((t.fields ++ fs).map (·.name)).Nodup) :
    fs.foldl addField t = { t with fields := t.fields ++ fs } := by
  have fold (fs : List Field) (t : Table) : fs.foldl addField t =
      { t with fields := fs.foldl (fun l f => putBy (·.name == f.name) f l) t.fields } := by
    induction fs generalizing t with
    | nil => rfl
    | cons f fs ih =>
      rw [List.foldl_cons, ih]
      rfl
  rw [fold, foldl_putBy h]

theorem foldl_addIndex {t : Table} {is : List Index}
    (h : ((t.indexes ++ is).map (·.name)).Nodup) :
    is.foldl addIndex t = { t with indexes := t.indexes ++ is } := by
  have fold (is : List Index) (t : Table) : is.foldl addIndex t =
      { t with indexes := is.foldl (fun l i => putBy (·.name == i.name) i l) t.indexes } := by
    induction is generalizing t with
    | nil => rfl
    | cons i is ih =>
      rw [List.foldl_cons, ih]
      rfl
  rw [fold, foldl_putBy h]

/-- Whether the fields of a table have paths of their own, and the indexes names of their own. -/
structure Keyed (t : Table) : Prop where
  paths : (t.fields.map Field.path).Nodup
  indexNames : (t.indexes.map Index.name).Nodup

instance (t : Table) : Decidable t.Keyed :=
  decidable_of_iff ((t.fields.map Field.path).Nodup ∧ (t.indexes.map Index.name).Nodup)
    ⟨fun h => ⟨h.1, h.2⟩, fun h => ⟨h.1, h.2⟩⟩

namespace Keyed

variable {t : Table}

theorem index?_of_mem (h : t.Keyed) {i : Index} (hi : i ∈ t.indexes) : t.index? i.name = some i :=
  find?_key_of_mem h.indexNames hi

end Keyed

end Table

namespace Schema

/-- Whether the tables have names of their own, and so have their fields and indexes. -/
structure Keyed (s : Schema) : Prop where
  names : (s.tables.map Table.name).Nodup
  tables : ∀ t ∈ s.tables, t.Keyed

instance (s : Schema) : Decidable s.Keyed :=
  decidable_of_iff ((s.tables.map Table.name).Nodup ∧ ∀ t ∈ s.tables, t.Keyed)
    ⟨fun h => ⟨h.1, h.2⟩, fun h => ⟨h.1, h.2⟩⟩

theorem ofTables_of_nodup {ts : List Table} (h : (ts.map (·.name)).Nodup) :
    ofTables ts = ⟨ts⟩ := by
  have fold (ts : List Table) (s : Schema) : ts.foldl addTable s =
      ⟨ts.foldl (fun l t => putBy (·.name == t.name) t l) s.tables⟩ := by
    induction ts generalizing s with
    | nil => rfl
    | cons t ts ih =>
      rw [List.foldl_cons, ih]
      rfl
  have start : ((({} : Schema).tables ++ ts).map (·.name)).Nodup := h
  rw [ofTables, fold, foldl_putBy start]
  rfl

end Schema

end SchemaDrift
