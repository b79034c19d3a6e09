import SchemaDrift.Model.OfTable
import SchemaDrift.Source.Name

namespace SchemaDrift.Source

/-!
# Builder expressions

A declaration is written as a call that builds it, followed by a call for each of its clauses. The
fields of an object stand on lines of their own, one step further to the right.
-/

/-- A call with one quoted argument, if there is an argument. -/
def quotedCall (name : Text) : Option Text → Text
  | none => []
  | some arg => "." ++ name ++ "(" ++ Text.quote arg ++ ")"

def bareCall (name : Text) (present : Bool) : Text := if present then "." ++ name ++ "()" else []

def operationName : Operation → Text
  | .select => "Select"
  | .create => "Create"
  | .update => "Update"
  | .delete => "Delete"

def grantCall (op : Operation) (expr : Text) : Text :=
  ".with(PermissionKind::" ++ operationName op ++ ", " ++ Text.quote expr ++ ")"

/-- The expression for permissions, unless there are none. -/
def permissions? (p : Permissions) : Option Text :=
  if p.isEmpty then none
  else
    some <|
      match p.uniform? with
      | some expr =>
        if expr = "FULL" then "Permissions::full()"
        else if expr = "NONE" then "Permissions::none()"
        else "Permissions::all(" ++ Text.quote expr ++ ")"
      | none =>
        "Permissions::new()" ++ p.granted.flatMap fun (op, expr) => grantCall op expr

def permissionsCall (p : Permissions) : Text :=
  match permissions? p with
  | none => []
  | some expr => ".permissions(" ++ expr ++ ")"

def clauses (c : Clauses) : Text :=
  bareCall "flexible" c.flexible ++ quotedCall "value" c.value ++ quotedCall "assert" c.assertion ++
    quotedCall "default" c.default ++ bareCall "readonly" c.readonly ++
    permissionsCall c.permissions

/-- A type without a constructor of its own. A geometry of a simple kind has one. -/
def custom (type : Text) : Text :=
  match (TypeExpr.argumentOf? "geometry" type).filter (·.all isIdentChar) with
  | some kind => "Field::geometry(" ++ Text.quote kind ++ ")"
  | none => "Field::custom(" ++ Text.quote type ++ ")"

def container (kind : Container) (element : Text) : Option Nat → Text
  | none => "Field::" ++ kind.keyword ++ "(" ++ element ++ ")"
  | some max => "Field::" ++ kind.keyword ++ "_max(" ++ element ++ ", " ++ Text.ofNat max ++ ")"

mutual

/-- The expression that builds a declaration; `indent` starts the line on which it stands. -/
def builder (indent : Text) : Declaration → Text
  | .of shape c => shapeBuilder indent shape ++ clauses c

def shapeBuilder (indent : Text) : Shape Declaration → Text
  | .scalar type => "Field::" ++ type ++ "()"
  | .record tables => "Field::record([" ++ Text.join ", " (tables.map Text.quote) ++ "])"
  | .option inner => "Field::option(" ++ builder indent inner ++ ")"
  | .container kind element max => container kind (builder indent element) max
  | .object [] => "Field::object(vec![])"
  | .object fields =>
    "Field::object(vec![\n" ++ entryLines (indent ++ "    ") fields ++ indent ++ "])"
  | .custom type => custom type

/-- One line, or more for an object, for each named declaration. -/
def entryLines (indent : Text) : List (Text × Declaration) → Text
  | [] => []
  | (name, d) :: rest =>
    indent ++ "(" ++ Text.quote name ++ ", " ++ builder indent d ++ "),\n" ++ entryLines indent rest

end

def entry (indent name : Text) (d : Declaration) : Text :=
  indent ++ "(" ++ Text.quote name ++ ", " ++ builder indent d ++ ")"

theorem entryLines_eq_flatMap (indent : Text) (fields : List (Text × Declaration)) :
    entryLines indent fields = fields.flatMap fun f => entry indent f.1 f.2 ++ [',', '\n'] := by
  induction fields with
  | nil => simp [entryLines]
  | cons f rest ih =>
    simp [entryLines, entry, ih]

end SchemaDrift.Source
