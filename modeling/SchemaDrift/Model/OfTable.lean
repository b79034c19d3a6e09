import SchemaDrift.Model.Basic
import SchemaDrift.Schema.TypeExpr

namespace SchemaDrift

/-!
# Models of tables

A field of a table is declared inside the field around it, if that field is an object or holds
elements of its type; any other field is declared on its own. The declarations are built from the
normal forms of the types.
-/

namespace Path

theorem length_lt_of_beforeLastDot {path parent : Text} (h : beforeLastDot path = some parent) :
    parent.length < path.length := by
  induction path generalizing parent with
  | nil => cases h
  | cons c rest ih =>
    unfold beforeLastDot at h
    split at h
    · rename_i t ht
      cases h
      have := ih ht
      simp only [List.length_cons]
      omega
    · split at h
      · cases h
        simp
      · cases h

end Path

namespace Table

/-- Whether the field around it accounts for the field. -/
def absorbs (t : Table) (f : Field) : Bool :=
  match (Path.parent? f.name).bind t.fieldAt? with
  | none => false
  | some parent =>
    if f.isWildcard then TypeExpr.element? parent.type == some (TypeExpr.normal f.type)
    else TypeExpr.isObject parent.type

/-- Whether the path of a field continues the path of another by one step. -/
def isInside (f around : Field) : Bool := Path.parent? f.name == some around.path

/-- The fields that are declared inside a field. -/
def absorbed (t : Table) (around : Field) : List Field :=
  t.fields.filter fun f => isInside f around && t.absorbs f

/-- Whether a field has an element constraint that does not agree with its type. -/
def hasStray (t : Table) (around : Field) : Bool :=
  t.fields.any fun f => f.isWildcard && isInside f around && !t.absorbs f

/-- The fields that are declared on their own. -/
def outermost (t : Table) : List Field := t.fields.filter (!t.absorbs ·)

/-- A length that no path of the table exceeds. -/
def pathBound (t : Table) : Nat := (t.fields.map (·.path.length)).foldr max 0

theorem length_path_le_pathBound {t : Table} {f : Field} (h : f ∈ t.fields) :
    f.path.length ≤ t.pathBound := by
  unfold pathBound
  generalize t.fields = fields at h
  induction fields with
  | nil => cases h
  | cons g rest ih =>
    simp only [List.map_cons, List.foldr_cons]
    rcases List.mem_cons.mp h with rfl | h
    · exact Nat.le_max_left _ _
    · exact Nat.le_trans (ih h) (Nat.le_max_right _ _)

theorem length_path_lt_of_isInside {f around : Field} (h : isInside f around = true) :
    around.path.length < f.path.length :=
  Path.length_lt_of_beforeLastDot (by simpa [isInside, Path.parent?, Field.path] using h)

end Table

namespace Declaration

/-- The types with a constructor of their own. -/
def scalars : List Text :=
  ["any", "bool", "bytes", "datetime", "decimal", "duration", "float", "int", "number", "string",
    "uuid"]

/-- The declarations inside a field. -/
structure Inner where
  children : List (Text × Declaration) := []
  element : Option Declaration := none
  /-- Whether an element constraint stands outside because it does not agree with the type. -/
  stray : Bool := false

/-- The container of a type, with the arguments between the brackets if it has them. -/
def container? (type : Text) : Option (Container × Option Text) :=
  Container.all.findSome? fun kind =>
    if type = kind.keyword then some (kind, none)
    else (TypeExpr.argumentOf? kind.keyword type).map fun args => (kind, some args)

theorem length_lt_of_container? {type args : Text} {kind : Container}
    (h : container? type = some (kind, some args)) : args.length < type.length := by
  obtain ⟨k, _, hk⟩ := List.exists_of_findSome?_eq_some h
  split at hk
  · cases hk
  · obtain ⟨a, ha, he⟩ := Option.map_eq_some_iff.mp hk
    cases he
    exact TypeExpr.length_lt_of_argumentOf? ha

/-- No number of 64 bits reaches this one. -/
def boundLimit : Nat := 0x10000000000000000

/-- The shape of a container, unless its bound is not a number of 64 bits. -/
def containerShape? (kind : Container) (element : Declaration) :
    List Text → Option (Shape Declaration)
  | [] => some (.container kind element none)
  | max :: _ => (Text.toNatBelow? boundLimit max).map fun max => .container kind element (some max)

/-- The shape of a type in its normal form. A container whose element constraint stands outside
keeps the spelling of its type. -/
def shapeOf (inner : Inner) (type : Text) : Shape Declaration :=
  match _h : TypeExpr.argumentOf? "option" type with
  | some wrapped => .option (plain (shapeOf inner wrapped))
  | none =>
    if type = "object" then .object inner.children
    else
      match _h : container? type with
      | some (kind, none) =>
        if inner.element.isNone && inner.stray then .custom type
        else .container kind (inner.element.getD (plain (.scalar "any"))) none
      | some (kind, some args) =>
        if inner.element.isNone && inner.stray then .custom type
        else
          let element := inner.element.getD
            (plain (shapeOf {} ((TypeExpr.splitTop ',' args).head?.getD [])))
          (containerShape? kind element (TypeExpr.splitTop ',' args).tail).getD (.custom type)
      | none =>
        if scalars.contains type then .scalar type
        else
          match TypeExpr.argumentOf? "record" type with
          | some tables => .record (TypeExpr.splitTop '|' tables)
          | none => .custom type
termination_by type.length
decreasing_by
  · exact TypeExpr.length_lt_of_argumentOf? _h
  · have hargs := length_lt_of_container? _h
    cases hs : TypeExpr.splitTop ',' args with
    | nil => simp only [List.head?_nil, Option.getD_none, List.length_nil]; omega
    | cons first rest =>
      have : first.length ≤ args.length :=
        TypeExpr.length_le_of_mem_splitTop (hs ▸ List.mem_cons_self)
      simp only [List.head?_cons, Option.getD_some]
      omega

/-- The declaration of a field with everything that is declared inside it. -/
def ofField (t : Table) (f : Field) : Declaration :=
  let inside := (t.absorbed f).attach.map fun ⟨g, _⟩ => (g, ofField t g)
  let inner : Inner :=
    { children := (inside.filter (!·.1.isWildcard)).map fun (g, d) => (Path.lastName g.name, d)
      element := (inside.find? (·.1.isWildcard)).map (·.2)
      stray := t.hasStray f }
  of (shapeOf inner (TypeExpr.normal f.type))
    { flexible := f.flexible
      default := f.default
      value := f.value
      assertion := f.assertion
      readonly := f.readonly
      permissions := f.permissions }
termination_by t.pathBound - f.path.length
decreasing_by
  rename_i hg
  obtain ⟨hm, hp⟩ := List.mem_filter.mp hg
  have := Table.length_path_le_pathBound hm
  have := Table.length_path_lt_of_isInside (Bool.and_eq_true_iff.mp hp).1
  omega

end Declaration

namespace Model

/-- The model of a table. A view without a query is declared as an ordinary table. -/
def ofTable (t : Table) : Model where
  name := t.name
  kind := if t.kind = .view ∧ t.viewQuery.isNone then .normal else t.kind
  schemafull := t.schemafull
  drop := t.drop
  viewQuery := if t.kind = .view then t.viewQuery else none
  permissions := t.permissions
  fields := t.outermost.map fun f => (f.name, Declaration.ofField t f)

end Model

end SchemaDrift
