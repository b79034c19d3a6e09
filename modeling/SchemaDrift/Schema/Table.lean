import SchemaDrift.Schema.Field

namespace SchemaDrift

/-!
# Tables

A table has at most one field of a name and one index of a name when it is built by `addField` and
`addIndex`: a later definition takes the place of an earlier one.
-/

/-- Puts an element in the place of the first one of its kind, or at the end. -/
def putBy {α : Type} (same : α → Bool) (a : α) : List α → List α
  | [] => [a]
  | b :: rest => if same b then a :: rest else b :: putBy same a rest

/-- Changes the first element of a kind. -/
def modifyBy {α : Type} (same : α → Bool) (f : α → α) : List α → List α
  | [] => []
  | b :: rest => if same b then f b :: rest else b :: modifyBy same f rest

/-- What a table holds: records, edges between records, or the result of a query. -/
inductive TableKind where
  | normal
  | relation
  | view
  deriving DecidableEq, Inhabited, Repr

namespace TableKind

def all : List TableKind := [.normal, .relation, .view]

def keyword : TableKind → Text
  | normal => "NORMAL"
  | relation => "RELATION"
  | view => "VIEW"

/-- The word of the kind in a serialized table. -/
def tag (k : TableKind) : Text := Text.lowercase k.keyword

@[simp] theorem mem_all (k : TableKind) : k ∈ all := by cases k <;> decide

end TableKind

structure Table where
  name : Text
  kind : TableKind := .normal
  drop : Bool := false
  schemafull : Bool := true
  viewQuery : Option Text := none
  permissions : Permissions := {}
  fields : List Field := []
  indexes : List Index := []
  events : List Event := []
  deriving DecidableEq, Inhabited, Repr

namespace Table

def field? (t : Table) (name : Text) : Option Field := t.fields.find? (·.name == name)

/-- The field whose path is this one, in either spelling. -/
def fieldAt? (t : Table) (path : Text) : Option Field :=
  t.fields.find? (·.path == Path.normal path)

def index? (t : Table) (name : Text) : Option Index := t.indexes.find? (·.name == name)

def addField (t : Table) (f : Field) : Table :=
  { t with fields := putBy (·.name == f.name) f t.fields }

def addIndex (t : Table) (i : Index) : Table :=
  { t with indexes := putBy (·.name == i.name) i t.indexes }

def addEvent (t : Table) (e : Event) : Table := { t with events := t.events ++ [e] }

/-- The fields that are not element constraints. -/
def properFields (t : Table) : List Field := t.fields.filter (!·.isWildcard)

end Table

structure Schema where
  tables : List Table := []
  deriving DecidableEq, Inhabited, Repr

namespace Schema

def table? (s : Schema) (name : Text) : Option Table := s.tables.find? (·.name == name)

def addTable (s : Schema) (t : Table) : Schema := ⟨putBy (·.name == t.name) t s.tables⟩

def modifyTable (s : Schema) (name : Text) (f : Table → Table) : Schema :=
  ⟨modifyBy (·.name == name) f s.tables⟩

/-- The schema with these tables, a later one in the place of an earlier one of its name. -/
def ofTables (tables : List Table) : Schema := tables.foldl addTable {}

def isEmpty (s : Schema) : Bool := s.tables.isEmpty

end Schema

theorem putBy_of_find?_eq_none {α : Type} {same : α → Bool} {l : List α} (a : α)
    (h : l.find? same = none) : putBy same a l = l ++ [a] := by
  induction l with
  | nil => rfl
  | cons b rest ih =>
    have hb : same b = false := by simpa using List.find?_eq_none.mp h b List.mem_cons_self
    have hr : rest.find? same = none := by simpa [hb] using h
    simp [putBy, hb, ih hr]

theorem find?_putBy {α : Type} {same : α → Bool} {a : α} (l : List α) (h : same a = true) :
    (putBy same a l).find? same = some a := by
  induction l with
  | nil => simp [putBy, h]
  | cons b rest ih => by_cases hb : same b <;> simp [putBy, h, hb, ih]

@[simp] theorem Table.field?_addField (t : Table) (f : Field) :
    (t.addField f).field? f.name = some f := find?_putBy _ (by simp)

@[simp] theorem Table.index?_addIndex (t : Table) (i : Index) :
    (t.addIndex i).index? i.name = some i := find?_putBy _ (by simp)

@[simp] theorem Schema.table?_addTable (s : Schema) (t : Table) :
    (s.addTable t).table? t.name = some t := find?_putBy _ (by simp)

end SchemaDrift
