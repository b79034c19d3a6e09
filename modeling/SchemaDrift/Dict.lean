import SchemaDrift.Text.Basic

namespace SchemaDrift

/-!
# Dictionaries

A dictionary keeps one value for each key, in increasing order of the keys. Since the order is part
of the type, two dictionaries with the same content are equal.
-/

/-- Entries in strictly increasing order of their keys. -/
structure Dict (α : Type) where
  entries : List (Text × α)
  increasing : entries.Pairwise (·.1 < ·.1)

namespace Dict

variable {α β : Type}

/-- Puts a value under a key, in the place of an earlier value if there is one. -/
def insertEntry (key : Text) (value : α) : List (Text × α) → List (Text × α)
  | [] => [(key, value)]
  | (k, v) :: rest =>
    if key < k then (key, value) :: (k, v) :: rest
    else if key = k then (key, value) :: rest
    else (k, v) :: insertEntry key value rest

theorem mem_insertEntry {key : Text} {value : α} {l : List (Text × α)} {e : Text × α}
    (h : e ∈ insertEntry key value l) : e = (key, value) ∨ e ∈ l := by
  induction l with
  | nil => simpa [insertEntry] using h
  | cons head rest ih =>
    obtain ⟨k, v⟩ := head
    simp only [insertEntry] at h
    split at h
    · simpa using h
    · split at h
      · rcases List.mem_cons.mp h with h | h
        · exact .inl h
        · exact .inr (List.mem_cons_of_mem _ h)
      · rcases List.mem_cons.mp h with h | h
        · exact .inr (h ▸ List.mem_cons_self)
        · exact (ih h).imp_right (List.mem_cons_of_mem _)

theorem pairwise_insertEntry (key : Text) (value : α) {l : List (Text × α)}
    (h : l.Pairwise (·.1 < ·.1)) : (insertEntry key value l).Pairwise (·.1 < ·.1) := by
  induction l with
  | nil => simp [insertEntry]
  | cons head rest ih =>
    obtain ⟨k, v⟩ := head
    obtain ⟨hk, hr⟩ := List.pairwise_cons.mp h
    simp only [insertEntry]
    split
    · rename_i hlt
      refine List.pairwise_cons.mpr ⟨fun e he => ?_, h⟩
      rcases List.mem_cons.mp he with rfl | he
      · exact hlt
      · exact List.lt_trans hlt (hk e he)
    · rename_i hlt
      split
      · rename_i heq
        subst heq
        exact List.pairwise_cons.mpr ⟨hk, hr⟩
      · rename_i hne
        refine List.pairwise_cons.mpr ⟨fun e he => ?_, ih hr⟩
        rcases mem_insertEntry he with rfl | he
        · exact Decidable.byContradiction fun h =>
            hne (List.le_antisymm (List.not_lt.mp h) (List.not_lt.mp hlt))
        · exact hk e he

theorem pairwise_mapValues (f : α → β) {l : List (Text × α)} (h : l.Pairwise (·.1 < ·.1)) :
    (l.map fun e => (e.1, f e.2)).Pairwise (·.1 < ·.1) :=
  List.pairwise_map.mpr h

def empty : Dict α := ⟨[], .nil⟩

instance : Inhabited (Dict α) := ⟨empty⟩

instance : EmptyCollection (Dict α) := ⟨empty⟩

instance [DecidableEq α] : DecidableEq (Dict α) := fun a b =>
  decidable_of_iff (a.entries = b.entries)
    ⟨fun h => by cases a; cases b; simp_all, fun h => h ▸ rfl⟩

def insert (d : Dict α) (key : Text) (value : α) : Dict α :=
  ⟨insertEntry key value d.entries, pairwise_insertEntry key value d.increasing⟩

def get? (d : Dict α) (key : Text) : Option α := (d.entries.find? (·.1 == key)).map (·.2)

def contains (d : Dict α) (key : Text) : Bool := (d.get? key).isSome

def filter (p : Text → α → Bool) (d : Dict α) : Dict α :=
  ⟨d.entries.filter fun e => p e.1 e.2, d.increasing.filter _⟩

def map (f : α → β) (d : Dict α) : Dict β :=
  ⟨d.entries.map fun e => (e.1, f e.2), pairwise_mapValues f d.increasing⟩

/-- The entries of a list, a later one in the place of an earlier one with the same key. -/
def ofList (l : List (Text × α)) : Dict α := l.foldl (fun d e => d.insert e.1 e.2) ∅

def keys (d : Dict α) : List Text := d.entries.map (·.1)

def isEmpty (d : Dict α) : Bool := d.entries.isEmpty

@[ext] theorem ext {a b : Dict α} (h : a.entries = b.entries) : a = b := by
  cases a
  cases b
  simp_all

theorem find?_insertEntry (key k : Text) (value : α) (l : List (Text × α)) :
    ((insertEntry key value l).find? (·.1 == k)).map (·.2) =
      if key = k then some value else (l.find? (·.1 == k)).map (·.2) := by
  induction l with
  | nil => by_cases h : key = k <;> simp [insertEntry, h]
  | cons head rest ih =>
    obtain ⟨k', v'⟩ := head
    simp only [insertEntry]
    split
    · by_cases h : key = k <;> simp [h]
    · split
      · rename_i heq
        subst heq
        by_cases h : key = k <;> simp [h]
      · rename_i hne
        by_cases h : k' = k
        · subst h
          simp [hne]
        · simp [h, ih]

@[simp] theorem get?_insert (d : Dict α) (key k : Text) (value : α) :
    (d.insert key value).get? k = if key = k then some value else d.get? k :=
  find?_insertEntry key k value d.entries

@[simp] theorem get?_empty (k : Text) : (∅ : Dict α).get? k = none := rfl

theorem nodup_keys (d : Dict α) : d.keys.Nodup := by
  refine List.pairwise_map.mpr (d.increasing.imp ?_)
  intro a b h he
  rw [he] at h
  exact List.lt_irrefl b.1 h

end Dict

end SchemaDrift
