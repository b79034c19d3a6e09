import Mathlib.Data.List.Nodup
import SchemaDrift.Json.Codec

namespace SchemaDrift

/-!
# Values as they can be written

A value can be written in more than one way: a record as an object or as the list of all its fields,
with or without the fields that have the value they would have if they were absent, and with keys
that nobody knows. The ways are a relation of their own, which says nothing about how values are
read.
-/

variable {α β : Type} {c : Codec α} {a : α} {b : β} {j : Json} {slots : Slots β}
  {members extra : List (Text × Json)}

namespace Json

/-- What stands under a key of an object. -/
def under (key : Text) (members : List (Text × Json)) : List Json :=
  (members.filter (·.1 == key)).map (·.2)

@[simp] theorem under_append (key : Text) (xs ys : List (Text × Json)) :
    under key (xs ++ ys) = under key xs ++ under key ys := by
  rw [under, List.filter_append, List.map_append]
  rfl

theorem under_cons_self (key : Text) (value : Json) (rest : List (Text × Json)) :
    under key ((key, value) :: rest) = value :: under key rest := by
  simp [under]

theorem under_eq_nil {key : Text} (h : key ∉ members.map Prod.fst) : under key members = [] := by
  rw [under, List.filter_eq_nil_iff.mpr, List.map_nil]
  intro m hm hkey
  exact h (List.mem_map.mpr ⟨m, hm, eq_of_beq hkey⟩)

end Json

open Json

mutual

/-- Whether the JSON value is a way to write the value. -/
inductive Written : {α : Type} → Codec α → α → Json → Prop
  | text (t : Text) : Written .text t (.text t)
  | bool (b : Bool) : Written .bool b (.bool b)
  | tag {α : Type} {values : List α} {name : α → Text} {a : α} (ha : a ∈ values)
      (hname : ∀ b ∈ values, name b = name a → b = a) :
        Written (.tag values name) a (.text (name a))
  | absent {α : Type} (c : Codec α) : Written c.option none .null
  | present {α : Type} {c : Codec α} {a : α} {j : Json} (h : Written c a j) (hj : j ≠ .null) :
      Written c.option (some a) j
  | list {α : Type} {c : Codec α} {l : List α} {js : List Json} (h : WrittenAll c l js) :
      Written c.list l (.list js)
  /-- The entries of a dictionary, in order. -/
  | dict {α : Type} {c : Codec α} {d : Dict α} {js : List Json}
      (h : WrittenAll c (d.entries.map Prod.snd) js) : Written c.dict d (.object (d.keys.zip js))
  /-- A record as the list of all its fields. -/
  | array {α β : Type} {slots : Slots β} {pack : β → α} {unpack : α → β} {b : β} {js : List Json}
      (h : WrittenFields slots b js) : Written (.record slots pack unpack) (pack b) (.list js)
  /-- A record as an object. -/
  | object {α β : Type} {slots : Slots β} {pack : β → α} {unpack : α → β} {b : β}
      {members : List (Text × Json)} (h : WrittenMembers members slots b) :
      Written (.record slots pack unpack) (pack b) (.object members)

inductive WrittenAll : {α : Type} → Codec α → List α → List Json → Prop
  | nil {α : Type} (c : Codec α) : WrittenAll c [] []
  | cons {α : Type} {c : Codec α} {a : α} {j : Json} {l : List α} {js : List Json}
      (h : Written c a j) (hl : WrittenAll c l js) : WrittenAll c (a :: l) (j :: js)

inductive WrittenFields : {β : Type} → Slots β → β → List Json → Prop
  | nil : WrittenFields .nil () []
  | cons {α β : Type} {slot : Slot α} {rest : Slots β} {a : α} {b : β} {j : Json} {js : List Json}
      (h : Written slot.codec a j) (hrest : WrittenFields rest b js) :
      WrittenFields (.cons slot rest) (a, b) (j :: js)

/-- Each field is one member of the object, or it is left out. The other members are no fields. -/
inductive WrittenMembers : List (Text × Json) → {β : Type} → Slots β → β → Prop
  | nil (members : List (Text × Json)) : WrittenMembers members .nil ()
  | given {α β : Type} {members : List (Text × Json)} {slot : Slot α} {rest : Slots β}
      {a : α} {b : β}
      {j : Json} (hj : under slot.key members = [j]) (h : Written slot.codec a j)
      (hrest : WrittenMembers members rest b) : WrittenMembers members (.cons slot rest) (a, b)
  /-- A field may be left out if it has the value that an absent field has. -/
  | omitted {α β : Type} {members : List (Text × Json)} {slot : Slot α} {rest : Slots β}
      {a : α} {b : β}
      (hnone : under slot.key members = []) (ha : slot.fallback = some a)
      (hrest : WrittenMembers members rest b) : WrittenMembers members (.cons slot rest) (a, b)

end

/-! ## Reading what is written -/

namespace Dict

theorem insertEntry_of_forall_lt {key : Text} {value : α} {l : List (Text × α)}
    (h : ∀ e ∈ l, e.1 < key) : insertEntry key value l = l ++ [(key, value)] := by
  induction l with
  | nil => rfl
  | cons e l ih =>
    obtain ⟨he, hl⟩ := List.forall_mem_cons.mp h
    have later : ¬ key < e.1 := fun hlt => List.lt_irrefl _ (List.lt_trans hlt he)
    have other : key ≠ e.1 := fun hk => List.lt_irrefl e.1 (hk ▸ he)
    rw [insertEntry, if_neg later, if_neg other, ih hl, List.cons_append]

theorem entries_foldl_insert {d : Dict α} {l : List (Text × α)}
    (h : (d.entries ++ l).Pairwise (·.1 < ·.1)) :
    (l.foldl (fun d e => d.insert e.1 e.2) d).entries = d.entries ++ l := by
  induction l generalizing d with
  | nil => rw [List.append_nil]; rfl
  | cons e l ih =>
    have own : (d.insert e.1 e.2).entries = d.entries ++ [e] :=
      insertEntry_of_forall_lt fun f hf =>
        (List.pairwise_append.mp h).2.2 f hf e List.mem_cons_self
    rw [List.foldl_cons, ih (by rw [own]; simpa using h), own, List.append_assoc,
      List.singleton_append]

/-- A dictionary is that of its own entries. -/
@[simp] theorem ofList_entries (d : Dict α) : ofList d.entries = d :=
  Dict.ext (entries_foldl_insert d.increasing)

end Dict

theorem mapM_zip {keys : List Text} {l : List α} {js : List Json}
    (h : js.mapM c.decode = some l) (hkeys : keys.length = l.length) :
    (keys.zip js).mapM (fun m => (c.decode m.2).map (m.1, ·)) = some (keys.zip l) := by
  induction js generalizing keys l with
  | nil =>
    rw [List.mapM_nil] at h
    obtain rfl := Option.some.inj h
    rw [List.zip_nil_right, List.zip_nil_right]
    rfl
  | cons j js ih =>
    rw [List.mapM_cons] at h
    obtain ⟨a, ha, h⟩ := Option.bind_eq_some_iff.mp h
    obtain ⟨rest, hrest, h⟩ := Option.bind_eq_some_iff.mp h
    cases h
    cases keys with
    | nil => cases hkeys
    | cons key keys =>
      rw [List.zip_cons_cons, List.mapM_cons, ha, ih hrest (Nat.succ.inj hkeys)]
      rfl

theorem find?_name {values : List α} {name : α → Text} (ha : a ∈ values)
    (hname : ∀ b ∈ values, name b = name a → b = a) : values.find? (name · == name a) = some a := by
  have found : (values.find? (name · == name a)).isSome = true :=
    List.find?_isSome.mpr ⟨a, ha, beq_self_eq_true (name a)⟩
  obtain ⟨b, hb⟩ := Option.isSome_iff_exists.mp found
  have named : (name b == name a) = true := List.find?_some (p := (name · == name a)) hb
  rwa [hname b (List.mem_of_find?_eq_some hb) (eq_of_beq named)] at hb

/-- Whatever way a value is written, it is read as this value. -/
theorem Written.decode_eq (h : Written c a j) : c.decode j = some a := by
  refine @Written.rec (fun c a j _ => c.decode j = some a)
    (fun c l js _ => js.mapM c.decode = some l)
    (fun slots b js _ => slots.ofItems js = some b)
    (fun members _ slots b _ => slots.ofMembers members = some b)
    ?text ?bool ?tag ?absent ?present ?list ?dict ?array ?object ?nilAll ?consAll
      ?nilFields ?consFields
    ?nilMembers ?given ?omitted α c a j h
  case text => exact fun t => rfl
  case bool => exact fun b => rfl
  case tag => exact fun ha hname => find?_name ha hname
  case absent => exact fun c => rfl
  case present =>
    intro α c a j h hj ih
    have some : (c.decode j).map some = some (some a) := by rw [ih]; rfl
    cases j with
    | null => exact absurd rfl hj
    | _ => exact some
  case list => exact fun _ ih => ih
  case dict =>
    intro α c d js h ih
    have keys : d.keys.length = (d.entries.map Prod.snd).length := by simp [Dict.keys]
    have entries : d.keys.zip (d.entries.map Prod.snd) = d.entries := by
      rw [Dict.keys, List.zip_map']
      exact List.map_id _
    have read := mapM_zip ih keys
    rw [entries] at read
    change ((d.keys.zip js).mapM fun m => (c.decode m.2).map (m.1, ·)).bind _ = _
    rw [read, Option.bind_some, Dict.ofList_entries]
    rfl
  case array =>
    intro α β slots pack unpack b js h ih
    exact congrArg (Option.map pack) ih
  case object =>
    intro α β slots pack unpack b members h ih
    exact congrArg (Option.map pack) ih
  case nilAll => exact fun c => rfl
  case consAll =>
    intro α c a j l js h hl ih ihl
    rw [List.mapM_cons, ih, ihl]
    rfl
  case nilFields => rfl
  case consFields =>
    intro α β slot rest a b j js h hrest ih ihrest
    rw [Slots.ofItems, ih, ihrest]
    rfl
  case nilMembers => exact fun members => rfl
  case given =>
    intro α β members slot rest a b j hj h hrest ih ihrest
    have own : slot.read (under slot.key members) = some a := by
      rw [hj]
      exact ih
    change (slot.read (under slot.key members)).bind _ = _
    rw [own, Option.bind_some, ihrest]
    rfl
  case omitted =>
    intro α β members slot rest a b hnone ha hrest ihrest
    have own : slot.read (under slot.key members) = some a := by
      rw [hnone]
      exact ha
    change (slot.read (under slot.key members)).bind _ = _
    rw [own, Option.bind_some, ihrest]
    rfl

/-! ## Members that nobody knows -/

def Slots.keys {β : Type} : Slots β → List Text
  | .nil => []
  | .cons slot rest => slot.key :: rest.keys

theorem Json.under_perm {key : Text} {members' : List (Text × Json)} {values : List Json}
    (h : members'.Perm (members ++ extra)) (hextra : key ∉ extra.map Prod.fst)
    (hvalues : under key members = values) : (under key members').Perm values := by
  have perm : (under key members').Perm (under key (members ++ extra)) := (h.filter _).map _
  rwa [under_append, under_eq_nil hextra, List.append_nil, hvalues] at perm

/-- The members of an object can stand in another order, with others between them. -/
theorem WrittenMembers.of_perm {members' : List (Text × Json)} (h : WrittenMembers members slots b)
    (hp : members'.Perm (members ++ extra))
    (hextra : ∀ key ∈ slots.keys, key ∉ extra.map Prod.fst) : WrittenMembers members' slots b := by
  -- Only the members matter, so nothing is said about the other three relations.
  refine @WrittenMembers.rec (fun _ _ _ _ => True) (fun _ _ _ _ => True) (fun _ _ _ _ => True)
    (fun members _ slots b _ => members'.Perm (members ++ extra) →
      (∀ key ∈ slots.keys, key ∉ extra.map Prod.fst) → WrittenMembers members' slots b)
    ?_ ?_ ?_ ?_ ?_ ?_ ?_ ?_ ?_ ?_ ?_ ?_ ?_ ?nil ?given ?omitted members β slots b h hp hextra
  case nil => exact fun members _ _ => .nil members'
  case given =>
    intro α β members slot rest a b j hj h _ _ ih hp hextra
    obtain ⟨hkey, hkeys⟩ := List.forall_mem_cons.mp hextra
    exact .given (List.perm_singleton.mp (under_perm hp hkey hj)) h (ih hp hkeys)
  case omitted =>
    intro α β members slot rest a b hnone ha _ ih hp hextra
    obtain ⟨hkey, hkeys⟩ := List.forall_mem_cons.mp hextra
    exact .omitted (List.perm_nil.mp (under_perm hp hkey hnone)) ha (ih hp hkeys)
  all_goals
    intros
    trivial

end SchemaDrift
