import SchemaDrift.Text.Decimal

namespace SchemaDrift

/-!
# JSON values

An object keeps its members as they were written: in order, with repeated keys. `Json.merged` gives
the value in which the last of the repeated keys counts.
-/

/-- A JSON value. A text that holds half of a surrogate pair, or an object with such a key, is
`unreadable`: it may be skipped, but no reader accepts it. -/
inductive Json where
  | null
  | bool (value : Bool)
  | number (literal : Text)
  | text (value : Text)
  | list (items : List Json)
  | object (members : List (Text × Json))
  | unreadable
  deriving Inhabited

namespace Json

/-- Adds a member in front unless a later member has the same key. -/
def consMember (key : Text) (value : Json) (later : List (Text × Json)) : List (Text × Json) :=
  if later.any (·.1 == key) then later else (key, value) :: later

mutual

/-- The same value with one member for each key: the last that was written. -/
def merged : Json → Json
  | .list items => .list (mergedItems items)
  | .object members => .object (mergedMembers members)
  | value => value

def mergedItems : List Json → List Json
  | [] => []
  | item :: rest => item.merged :: mergedItems rest

def mergedMembers : List (Text × Json) → List (Text × Json)
  | [] => []
  | (key, value) :: rest => consMember key value.merged (mergedMembers rest)

end

mutual

/-- Whether every text in the value could be read. -/
def readable : Json → Bool
  | .list items => readableItems items
  | .object members => readableMembers members
  | .unreadable => false
  | _ => true

def readableItems : List Json → Bool
  | [] => true
  | item :: rest => item.readable && readableItems rest

def readableMembers : List (Text × Json) → Bool
  | [] => true
  | (_, value) :: rest => value.readable && readableMembers rest

end

mutual

/-- How many lists and objects lie around the innermost value. -/
def depth : Json → Nat
  | .list items => depthItems items + 1
  | .object members => depthMembers members + 1
  | _ => 0

def depthItems : List Json → Nat
  | [] => 0
  | item :: rest => max item.depth (depthItems rest)

def depthMembers : List (Text × Json) → Nat
  | [] => 0
  | (_, value) :: rest => max value.depth (depthMembers rest)

end

def member? (key : Text) : Json → Option Json
  | .object members => (members.find? (·.1 == key)).map (·.2)
  | _ => none

def natural? : Json → Option Nat
  | .number literal => Text.digitsValue 0 literal
  | _ => none

end Json

end SchemaDrift
