import SchemaDrift.Change.Basic
import SchemaDrift.Plan.FileChange
import SchemaDrift.Proofs.Json.Spelled
import SchemaDrift.Proofs.Json.Written
import SchemaDrift.Reading.Database
import SchemaDrift.Schema.Serial

namespace SchemaDrift

/-!
# Encoded values

A codec is faithful if what it writes is one of the ways to write the value. Codecs of records are
faithful if no slot leaves out a value that it does not get back when the field is absent.
-/

variable {α β : Type} {c : Codec α} {slot : Slot α} {slots : Slots β} {key : Text} {b : β}
  {pack : β → α} {unpack : α → β}

open Json

/-- Whether what the codec writes is a way to write the value, and can be printed. -/
structure Codec.Faithful (c : Codec α) : Prop where
  written : ∀ a, Written c a (c.encode a)
  spelled : ∀ a, (c.encode a).IsSpelled

/-- Whether the codec of the slot is faithful, and the slot gets back what it leaves out. -/
structure Slot.IsSound (slot : Slot α) : Prop where
  faithful : slot.codec.Faithful
  fallback_eq : ∀ a, slot.omits a = true → slot.fallback = some a

def Slots.IsSound {β : Type} : Slots β → Prop
  | .nil => True
  | .cons slot rest => slot.IsSound ∧ rest.IsSound

namespace Codec

theorem faithful_text : text.Faithful := ⟨.text, fun _ => trivial⟩

theorem faithful_bool : bool.Faithful := ⟨.bool, fun _ => trivial⟩

theorem faithful_tag {values : List α} {name : α → Text} (hall : ∀ a, a ∈ values)
    (hname : ∀ a b, name b = name a → b = a) : (tag values name).Faithful :=
  ⟨fun a => .tag (hall a) fun b _ => hname a b, fun _ => trivial⟩

theorem faithful_option (h : c.Faithful) (hnull : ∀ a, c.encode a ≠ .null) : c.option.Faithful where
  written
    | none => .absent c
    | some a => .present (h.written a) (hnull a)
  spelled
    | none => trivial
    | some a => h.spelled a

theorem writtenAll_map (h : c.Faithful) (l : List α) : WrittenAll c l (l.map c.encode) := by
  induction l with
  | nil => exact .nil c
  | cons a l ih => exact .cons (h.written a) ih

theorem faithful_list (h : c.Faithful) : c.list.Faithful where
  written l := .list (writtenAll_map h l)
  spelled _ := areSpelled_iff.mpr (List.forall_mem_map.mpr fun a _ => h.spelled a)

theorem faithful_dict (h : c.Faithful) : c.dict.Faithful where
  written d := by
    have members : d.keys.zip ((d.entries.map Prod.snd).map c.encode) =
        d.entries.map fun e => (e.1, c.encode e.2) := by
      rw [Dict.keys, List.map_map, List.zip_map']
      rfl
    have written : Written c.dict d
        (.object (d.keys.zip ((d.entries.map Prod.snd).map c.encode))) :=
      .dict (writtenAll_map h _)
    rw [members] at written
    exact written
  spelled _ := membersSpelled_iff.mpr (List.forall_mem_map.mpr fun e _ => h.spelled e.2)

end Codec

namespace Slot

theorem isSound_required (h : c.Faithful) : (required key c).IsSound := ⟨h, nofun⟩

theorem isSound_defaulted (h : c.Faithful) (a : α) : (defaulted key c a).IsSound := ⟨h, nofun⟩

theorem isSound_optional (h : c.Faithful) (hnull : ∀ a, c.encode a ≠ .null) :
    (optional key c).IsSound where
  faithful := Codec.faithful_option h hnull
  fallback_eq _ ha := congrArg some (Option.isNone_iff_eq_none.mp ha).symm

theorem isSound_listed (h : c.Faithful) : (listed key c).IsSound where
  faithful := Codec.faithful_list h
  fallback_eq _ ha := congrArg some (List.isEmpty_iff.mp ha).symm

end Slot

namespace Slots

theorem map_fst_members_subset (slots : Slots β) (b : β) :
    (slots.members b).map Prod.fst ⊆ slots.keys := by
  induction slots with
  | nil => exact List.Subset.refl _
  | cons slot rest ih =>
    rw [members]
    split
    · exact List.Subset.trans (ih _) (List.subset_cons_self _ _)
    · exact List.cons_subset_cons _ (ih _)

/-- The object for a record holds its fields, behind members with other keys. -/
theorem writtenMembers_append (h : slots.IsSound) (hkeys : slots.keys.Nodup) (b : β)
    (front : List (Text × Json)) (hfront : ∀ key ∈ slots.keys, key ∉ front.map Prod.fst) :
    WrittenMembers (front ++ slots.members b) slots b := by
  induction slots generalizing front with
  | nil => exact .nil _
  | @cons α β slot rest ih =>
    obtain ⟨a, b⟩ := b
    obtain ⟨hslot, hrest⟩ := h
    obtain ⟨hkey, hnodup⟩ := List.nodup_cons.mp hkeys
    obtain ⟨hown, hothers⟩ := List.forall_mem_cons.mp hfront
    have later : under slot.key (rest.members b) = [] :=
      under_eq_nil fun hm => hkey (rest.map_fst_members_subset b hm)
    rw [members]
    split
    · rename_i homits
      have none : under slot.key (front ++ rest.members b) = [] := by
        rw [under_append, under_eq_nil hown, later, List.append_nil]
      exact .omitted none (hslot.fallback_eq a homits) (ih hrest hnodup b front hothers)
    · have one : under slot.key (front ++ (slot.key, slot.codec.encode a) :: rest.members b) =
          [slot.codec.encode a] := by
        rw [under_append, under_eq_nil hown, under_cons_self, later, List.nil_append]
      refine .given one (hslot.faithful.written a) ?_
      rw [List.append_cons]
      refine ih hrest hnodup b _ fun key hk => ?_
      rw [List.map_append, List.mem_append, not_or]
      refine ⟨hothers key hk, ?_⟩
      rintro (_ | ⟨_, ⟨⟩⟩)
      exact hkey hk

theorem isSpelled_of_mem_members (h : slots.IsSound) {m : Text × Json} (hm : m ∈ slots.members b) :
    m.2.IsSpelled := by
  induction slots with
  | nil => cases hm
  | @cons α β slot rest ih =>
    obtain ⟨a, b⟩ := b
    obtain ⟨hslot, hrest⟩ := h
    rw [members] at hm
    split at hm
    · exact ih hrest hm
    · rcases List.mem_cons.mp hm with rfl | hm
      · exact hslot.faithful.spelled a
      · exact ih hrest hm

theorem length_items (slots : Slots β) (b : β) : (slots.items b).length = slots.keys.length := by
  induction slots with
  | nil => rfl
  | cons slot rest ih => exact congrArg Nat.succ (ih b.2)

/-- The list of all fields, none left out. -/
theorem writtenFields_items (h : slots.IsSound) (b : β) :
    WrittenFields slots b (slots.items b) := by
  induction slots with
  | nil => exact .nil
  | cons slot rest ih => exact .cons (h.1.faithful.written b.1) (ih h.2 b.2)

end Slots

namespace Codec

/-- Whether the codec is that of a record whose slots are sound and have these keys, which
differ. -/
def IsRecord (c : Codec α) (keys : List Text) : Prop :=
  ∃ (β : Type) (slots : Slots β) (pack : β → α) (unpack : α → β), c = record slots pack unpack ∧
    slots.IsSound ∧ slots.keys = keys ∧ keys.Nodup ∧ ∀ a, pack (unpack a) = a

section Record

variable {keys : List Text} (h : c.IsRecord keys)
include h

theorem IsRecord.faithful : c.Faithful := by
  obtain ⟨β, slots, pack, unpack, rfl, hsound, rfl, hnodup, hpack⟩ := h
  refine ⟨fun a => ?_, fun a =>
    membersSpelled_iff.mpr fun _ hm => slots.isSpelled_of_mem_members hsound hm⟩
  have written : Written (record slots pack unpack) (pack (unpack a))
      (.object (slots.members (unpack a))) :=
    .object (slots.writtenMembers_append hsound hnodup (unpack a) [] fun key _ => List.not_mem_nil)
  rw [hpack] at written
  exact written

/-- A record can be written as the list of all its fields. -/
theorem IsRecord.exists_list (a : α) :
    ∃ items, items.length = keys.length ∧ Written c a (.list items) := by
  obtain ⟨β, slots, pack, unpack, rfl, hsound, rfl, -, hpack⟩ := h
  have written : Written (record slots pack unpack) (pack (unpack a))
      (.list (slots.items (unpack a))) :=
    .array (slots.writtenFields_items hsound (unpack a))
  rw [hpack] at written
  exact ⟨_, slots.length_items (unpack a), written⟩

/-- The object of a record can have other members in any place, with keys that are not among its
own. -/
theorem IsRecord.written_of_perm {members extra members' : List (Text × Json)} {a : α}
    (hencode : c.encode a = .object members) (hperm : members'.Perm (members ++ extra))
    (hextra : ∀ key ∈ keys, key ∉ extra.map Prod.fst) : Written c a (.object members') := by
  obtain ⟨β, slots, pack, unpack, rfl, hsound, rfl, hnodup, hpack⟩ := h
  cases hencode
  have own := slots.writtenMembers_append hsound hnodup (unpack a) [] fun key _ => List.not_mem_nil
  have written : Written (record slots pack unpack) (pack (unpack a)) (.object members') :=
    .object (own.of_perm hperm hextra)
  rw [hpack] at written
  exact written

end Record

end Codec

/-! ## Schemas, changes and snapshots -/

theorem Slot.isSound_optional_text : (optional key .text).IsSound :=
  isSound_optional Codec.faithful_text nofun

theorem Slot.isSound_defaulted_bool (b : Bool) : (defaulted key .bool b).IsSound :=
  isSound_defaulted Codec.faithful_bool b

theorem Permissions.isRecord_codec :
    Permissions.codec.IsRecord ["select", "create", "update", "delete"] :=
  ⟨_, _, _, _, rfl,
    ⟨Slot.isSound_optional_text, Slot.isSound_optional_text, Slot.isSound_optional_text,
      Slot.isSound_optional_text, trivial⟩,
    rfl, by decide, fun _ => rfl⟩

theorem Field.isRecord_codec : Field.codec.IsRecord ["name", "type", "flex", "default", "value",
    "assert", "readonly", "permissions"] :=
  ⟨_, _, _, _, rfl,
    ⟨Slot.isSound_required Codec.faithful_text, Slot.isSound_required Codec.faithful_text,
      Slot.isSound_defaulted_bool false, Slot.isSound_optional_text, Slot.isSound_optional_text,
      Slot.isSound_optional_text, Slot.isSound_defaulted_bool false,
      Slot.isSound_defaulted Permissions.isRecord_codec.faithful {}, trivial⟩,
    rfl, by decide, fun _ => rfl⟩

theorem Index.isRecord_codec :
    Index.codec.IsRecord ["name", "columns", "unique", "search", "vector"] :=
  ⟨_, _, _, _, rfl,
    ⟨Slot.isSound_required Codec.faithful_text,
      Slot.isSound_required (Codec.faithful_list Codec.faithful_text),
      Slot.isSound_defaulted_bool false, Slot.isSound_defaulted_bool false,
      Slot.isSound_defaulted_bool false, trivial⟩,
    rfl, by decide, fun _ => rfl⟩

theorem Event.isRecord_codec : Event.codec.IsRecord ["name", "cond", "then"] :=
  ⟨_, _, _, _, rfl,
    ⟨Slot.isSound_required Codec.faithful_text, Slot.isSound_required Codec.faithful_text,
      Slot.isSound_required Codec.faithful_text, trivial⟩,
    rfl, by decide, fun _ => rfl⟩

theorem TableKind.faithful_codec : TableKind.codec.Faithful :=
  Codec.faithful_tag TableKind.mem_all (by intro a b; cases a <;> cases b <;> decide)

theorem Table.isRecord_codec : Table.codec.IsRecord
    ["name", "type", "drop", "schemafull", "view_query",
    "permissions", "fields", "indexes", "events"] :=
  ⟨_, _, _, _, rfl,
    ⟨Slot.isSound_required Codec.faithful_text,
      Slot.isSound_defaulted TableKind.faithful_codec .normal, Slot.isSound_defaulted_bool false,
      Slot.isSound_defaulted_bool true, Slot.isSound_optional_text,
      Slot.isSound_defaulted Permissions.isRecord_codec.faithful {},
      Slot.isSound_defaulted (Codec.faithful_list Field.isRecord_codec.faithful) [],
      Slot.isSound_defaulted (Codec.faithful_list Index.isRecord_codec.faithful) [],
      Slot.isSound_defaulted (Codec.faithful_list Event.isRecord_codec.faithful) [], trivial⟩,
    rfl, by decide, fun _ => rfl⟩

theorem Schema.isRecord_codec : Schema.codec.IsRecord ["tables"] :=
  ⟨_, _, _, _, rfl,
    ⟨Slot.isSound_required (Codec.faithful_list Table.isRecord_codec.faithful), trivial⟩,
    rfl, by decide, fun _ => rfl⟩

theorem Change.isRecord_codec : Change.codec.IsRecord ["type", "table", "field", "index",
    "old_value", "new_value", "description"] :=
  ⟨_, _, _, _, rfl,
    ⟨Slot.isSound_required (Codec.faithful_tag Change.Kind.mem_all
        (by intro a b; cases a <;> cases b <;> decide)),
      Slot.isSound_required Codec.faithful_text, Slot.isSound_optional_text,
      Slot.isSound_optional_text, Slot.isSound_optional_text, Slot.isSound_optional_text,
      Slot.isSound_required Codec.faithful_text, trivial⟩,
    rfl, by decide, fun _ => rfl⟩

theorem FileChange.isRecord_codec :
    FileChange.codec.IsRecord ["file", "table", "action", "content", "notes"] :=
  ⟨_, _, _, _, rfl,
    ⟨Slot.isSound_required Codec.faithful_text, Slot.isSound_optional_text,
      Slot.isSound_required (Codec.faithful_tag (by intro a; cases a <;> decide)
        (by intro a b; cases a <;> cases b <;> decide)),
      Slot.isSound_optional_text, Slot.isSound_listed Codec.faithful_text, trivial⟩,
    rfl, by decide, fun _ => rfl⟩

theorem Slot.isSound_statements : (defaulted key (.dict .text) ∅).IsSound :=
  isSound_defaulted (Codec.faithful_dict Codec.faithful_text) ∅

theorem DatabaseInfo.isRecord_codec :
    DatabaseInfo.codec.IsRecord ["tables", "analyzers", "functions",
    "params", "accesses", "users"] :=
  ⟨_, _, _, _, rfl,
    ⟨Slot.isSound_statements, Slot.isSound_statements, Slot.isSound_statements,
      Slot.isSound_statements, Slot.isSound_statements, Slot.isSound_statements, trivial⟩,
    rfl, by decide, fun _ => rfl⟩

theorem TableInfo.isRecord_codec : TableInfo.codec.IsRecord ["fields", "indexes", "events"] :=
  ⟨_, _, _, _, rfl,
    ⟨Slot.isSound_statements, Slot.isSound_statements, Slot.isSound_statements, trivial⟩,
    rfl, by decide, fun _ => rfl⟩

theorem Snapshot.isRecord_codec : Snapshot.codec.IsRecord ["database", "tables"] :=
  ⟨_, _, _, _, rfl,
    ⟨Slot.isSound_defaulted DatabaseInfo.isRecord_codec.faithful {},
      Slot.isSound_defaulted (Codec.faithful_dict TableInfo.isRecord_codec.faithful) ∅, trivial⟩,
    rfl, by decide, fun _ => rfl⟩

end SchemaDrift
