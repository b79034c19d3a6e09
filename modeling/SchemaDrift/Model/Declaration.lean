import SchemaDrift.Schema.Table
import SchemaDrift.Text.Decimal

namespace SchemaDrift

/-!
# Declarations

The code declares a field as a tree: an option, an array or a set holds the declaration of what is
inside, and an object holds its fields by name. A table has the same fields as a flat list of paths.
-/

/-- The types that hold elements. -/
inductive Container where
  | array
  | set
  deriving DecidableEq, Repr

namespace Container

def all : List Container := [.array, .set]

def keyword : Container → Text
  | array => "array"
  | set => "set"

end Container

/-- What a declaration is made of, with declarations `α` inside. -/
inductive Shape (α : Type) where
  /-- A named type. -/
  | scalar (type : Text)
  /-- A link to a record of one of the tables. -/
  | record (tables : List Text)
  | option (inner : α)
  /-- Elements, with a bound on their number. -/
  | container (kind : Container) (element : α) (max : Option Nat)
  | object (fields : List (Text × α))
  /-- Any other type, as it is written. -/
  | custom (type : Text)

/-- What a declaration says besides its type. -/
structure Clauses where
  flexible : Bool := false
  default : Option Text := none
  value : Option Text := none
  assertion : Option Text := none
  readonly : Bool := false
  permissions : Permissions := {}
  deriving DecidableEq, Repr

/-- The declaration of a field. -/
inductive Declaration where
  | of (shape : Shape Declaration) (clauses : Clauses)

namespace Declaration

def shape : Declaration → Shape Declaration
  | of shape _ => shape

def clauses : Declaration → Clauses
  | of _ clauses => clauses

def plain (shape : Shape Declaration) : Declaration := of shape {}

def geometry (kind : Text) : Shape Declaration := .custom ("geometry<" ++ kind ++ ">")

/-- The type of elements, with the bound if there is one. -/
def containerType (kind : Container) (element : Text) : Option Nat → Text
  | none => kind.keyword ++ "<" ++ element ++ ">"
  | some max => kind.keyword ++ "<" ++ element ++ ", " ++ Text.ofNat max ++ ">"

def type : Declaration → Text
  | of (.scalar type) _ => type
  | of (.record []) _ => "record"
  | of (.record tables) _ => "record<" ++ Text.join " | " tables ++ ">"
  | of (.option inner) _ => "option<" ++ inner.type ++ ">"
  | of (.container kind element max) _ => containerType kind element.type max
  | of (.object _) _ => "object"
  | of (.custom type) _ => type

/-- The elements of a container, also inside an option. -/
def element? : Declaration → Option Declaration
  | of (.option inner) _ => inner.element?
  | of (.container _ element _) _ => some element
  | _ => none

/-- The fields of an object, also inside an option. -/
def children? : Declaration → Option (List (Text × Declaration))
  | of (.option inner) _ => inner.children?
  | of (.object fields) _ => some fields
  | _ => none

def field (path : Text) (d : Declaration) : Field where
  name := path
  type := d.type
  flexible := d.clauses.flexible
  default := d.clauses.default
  value := d.clauses.value
  assertion := d.clauses.assertion
  readonly := d.clauses.readonly
  permissions := d.clauses.permissions

mutual

/-- The fields inside the declaration of a path. -/
def inside (path : Text) : Declaration → List Field
  | of (.option inner) _ => inside path inner
  | of (.container _ element _) _ =>
    let path := path ++ ".*"
    element.field path :: inside path element
  | of (.object fields) _ => insideAll path fields
  | _ => []

def insideAll (path : Text) : List (Text × Declaration) → List Field
  | [] => []
  | (name, d) :: rest =>
    let inner := path ++ "." ++ name
    d.field inner :: inside inner d ++ insideAll path rest

end

/-- The flat fields of a declaration: its own, then those inside it. -/
def flatten (path : Text) (d : Declaration) : List Field := d.field path :: d.inside path

end Declaration

end SchemaDrift
