import SchemaDrift.Json.Basic
import SchemaDrift.Dict

namespace SchemaDrift

/-!
# Records as JSON

A record is written as an object and read from an object or from the list of its fields in their
order. Each field has a slot that says under which key it stands, what it is when it is absent, and
which of its values are left out.
-/

/-- How the values of a type are written and read. -/
structure Codec (α : Type) where
  encode : α → Json
  decode : Json → Option α

namespace Codec

variable {α β : Type}

def text : Codec Text where
  encode t := .text t
  decode
    | .text t => some t
    | _ => none

def bool : Codec Bool where
  encode b := .bool b
  decode
    | .bool b => some b
    | _ => none

/-- An absent value is `null`. -/
def option (c : Codec α) : Codec (Option α) where
  encode
    | none => .null
    | some a => c.encode a
  decode
    | .null => some none
    | j => (c.decode j).map some

def list (c : Codec α) : Codec (List α) where
  encode l := .list (l.map c.encode)
  decode
    | .list items => items.mapM c.decode
    | _ => none

/-- The entries of an object, of which the last with a key counts. -/
def dict (c : Codec α) : Codec (Dict α) where
  encode d := .object (d.entries.map fun e => (e.1, c.encode e.2))
  decode
    | .object members => do
      let entries ← members.mapM fun m => (c.decode m.2).map (m.1, ·)
      return Dict.ofList entries
    | _ => none

/-- One of finitely many values, by name. An object with the name as its only key and `null` under
it is read as well. -/
def tag (values : List α) (name : α → Text) : Codec α where
  encode a := .text (name a)
  decode
    | .text t => values.find? (name · == t)
    | .object [(t, .null)] => values.find? (name · == t)
    | _ => none

end Codec

/-- A field of a record. -/
structure Slot (α : Type) where
  key : Text
  codec : Codec α
  /-- The value of the field when it is absent, if it may be absent. -/
  fallback : Option α
  /-- Whether a value is left out of an object. -/
  omits : α → Bool

namespace Slot

variable {α : Type}

def required (key : Text) (codec : Codec α) : Slot α := ⟨key, codec, none, fun _ => false⟩

/-- A field with a value of its own when it is absent. -/
def defaulted (key : Text) (codec : Codec α) (value : α) : Slot α :=
  ⟨key, codec, some value, fun _ => false⟩

def optional (key : Text) (codec : Codec α) : Slot (Option α) :=
  ⟨key, codec.option, some none, Option.isNone⟩

/-- A list that is written only if it has an element. -/
def listed (key : Text) (codec : Codec α) : Slot (List α) :=
  ⟨key, codec.list, some [], List.isEmpty⟩

/-- The value of the field, given what is written under its key. -/
def read (slot : Slot α) : List Json → Option α
  | [] => slot.fallback
  | [value] => slot.codec.decode value
  | _ => none

end Slot

/-- The slots of a record, in the order of its fields. -/
inductive Slots : Type → Type 1
  | nil : Slots Unit
  | cons {α β : Type} (slot : Slot α) (rest : Slots β) : Slots (α × β)

namespace Slots

/-- The members of the object for a record. -/
def members {β : Type} : Slots β → β → List (Text × Json)
  | .nil, _ => []
  | .cons slot rest, (a, b) =>
    if slot.omits a then rest.members b
    else (slot.key, slot.codec.encode a) :: rest.members b

/-- The fields as a list, none left out. -/
def items {β : Type} : Slots β → β → List Json
  | .nil, _ => []
  | .cons slot rest, (a, b) => slot.codec.encode a :: rest.items b

/-- The record of an object. Each key stands in it at most once; other keys do not matter. -/
def ofMembers {β : Type} (members : List (Text × Json)) : Slots β → Option β
  | .nil => some ()
  | .cons slot rest => do
    let a ← slot.read ((members.filter (·.1 == slot.key)).map (·.2))
    let b ← rest.ofMembers members
    return (a, b)

/-- The record of a list, which may end early. -/
def ofItems {β : Type} : Slots β → List Json → Option β
  | .nil, [] => some ()
  | .nil, _ :: _ => none
  | .cons slot rest, [] => do
    let a ← slot.fallback
    let b ← rest.ofItems []
    return (a, b)
  | .cons slot rest, item :: later => do
    let a ← slot.codec.decode item
    let b ← rest.ofItems later
    return (a, b)

end Slots

namespace Codec

variable {α β : Type}

/-- The codec of a record that is packed from and unpacked into the values of its slots. -/
def record (slots : Slots β) (pack : β → α) (unpack : α → β) : Codec α where
  encode a := .object (slots.members (unpack a))
  decode
    | .object members => (slots.ofMembers members).map pack
    | .list items => (slots.ofItems items).map pack
    | _ => none

end Codec

end SchemaDrift
