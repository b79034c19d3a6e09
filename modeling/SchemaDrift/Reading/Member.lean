import SchemaDrift.Reading.Warning

namespace SchemaDrift

/-!
# Members of tables

Fields, indexes and events are defined one by one and added to their table. Some of them bring a
warning, because they or parts of them are kept without being synchronized.
-/

/-- A definition that belongs to a table. -/
inductive Member where
  | field (f : Field)
  | index (i : Index)
  | event (e : Event)
  deriving DecidableEq, Repr

namespace Member

def noun : Member → Noun
  | field _ => .field
  | index _ => .index
  | event _ => .event

def name : Member → Text
  | field f => f.name
  | index i => i.name
  | event e => e.name

def addTo (t : Table) : Member → Table
  | field f => t.addField f
  | index i => t.addIndex i
  | event e => t.addEvent e

def readField (statement : Text) : Except Fault Member := (Statement.readField statement).map field

def readIndex (statement : Text) : Except Fault Member := (Statement.readIndex statement).map index

def readEvent (statement : Text) : Except Fault Member := (Statement.readEvent statement).map event

/-- The name of a geometry that is not modeled, if the text starts with one. -/
def geometryAt? (t : Text) : Option Text :=
  let word? (word : Text) : Option Text :=
    ((Text.stripKeyword word t).filter Text.atWordEnd).map fun _ => t.take word.length
  let multi? : Option Text :=
    (Text.stripKeyword "multi" t).map fun rest => t.take 5 ++ rest.takeWhile Text.isWord
  (word? "feature").or (multi?.or (word? "collection"))

/-- The first geometry that is not modeled before the next closing bracket. -/
def geometryIn? (before : Option Char) : Text → Option Text
  | [] => none
  | c :: cs =>
    let here := if before.any Text.isWord then none else geometryAt? (c :: cs)
    here.or (if c = '>' then none else geometryIn? (some c) cs)

/-- The first argument of a geometry type that is not modeled. -/
def geometryType? : Text → Option Text
  | [] => none
  | c :: cs =>
    ((Text.stripKeyword "geometry<" (c :: cs)).bind (geometryIn? (some '<'))).or (geometryType? cs)

/-- What has to be said when a member of the table with this name is added. -/
def warnings (table : Text) : Member → List Warning
  | field f =>
    match geometryType? f.type with
    | none => []
    | some shape =>
      [.unsupported ("field " ++ table ++ "." ++ f.name)
        ("Geometry subtype '" ++ shape ++ "' is not modeled")
        "The type is kept verbatim; review it after generation"]
  | index i =>
    if i.vector then
      [.unsupported ("index " ++ table ++ "." ++ i.name)
        "Vector indexes (HNSW/MTREE) are not synchronized"
        "Define the index manually in a migration"]
    else if i.search then
      [.unsupported ("index " ++ table ++ "." ++ i.name)
        "Full-text search indexes are not synchronized"
        "Define the analyzer and index manually in a migration"]
    else []
  | event e =>
    [.unsupported ("event " ++ table ++ "." ++ e.name)
      "Events are captured but not synchronized"
      "Keep event definitions in hand-written migrations"]

@[simp] theorem name_addTo (t : Table) (m : Member) : (m.addTo t).name = t.name := by
  cases m <;> rfl

end Member

end SchemaDrift
