import SchemaDrift.Text.Basic

namespace SchemaDrift

/-!
# Permissions

A table or field grants each of the four operations by an expression of its own, which may be
absent.
-/

/-- An operation that can be granted. -/
inductive Operation where
  | select
  | create
  | update
  | delete
  deriving DecidableEq, Repr

namespace Operation

/-- Every operation, in the order in which they are listed. -/
def all : List Operation := [.select, .create, .update, .delete]

def keyword : Operation → Text
  | select => "select"
  | create => "create"
  | update => "update"
  | delete => "delete"

def ofKeyword? (word : Text) : Option Operation := all.find? (Text.sameLetters ·.keyword word)

@[simp] theorem mem_all (op : Operation) : op ∈ all := by cases op <;> decide

@[simp] theorem ofKeyword?_keyword (op : Operation) : ofKeyword? op.keyword = some op := by
  cases op <;> decide

end Operation

/-- The expressions that grant the operations. -/
structure Permissions where
  select : Option Text := none
  create : Option Text := none
  update : Option Text := none
  delete : Option Text := none
  deriving DecidableEq, Inhabited, Repr

namespace Permissions

def empty : Permissions := {}

def all (expr : Text) : Permissions := ⟨some expr, some expr, some expr, some expr⟩

def get (p : Permissions) : Operation → Option Text
  | .select => p.select
  | .create => p.create
  | .update => p.update
  | .delete => p.delete

def set (p : Permissions) (op : Operation) (expr : Text) : Permissions :=
  match op with
  | .select => { p with select := some expr }
  | .create => { p with create := some expr }
  | .update => { p with update := some expr }
  | .delete => { p with delete := some expr }

def setAll (p : Permissions) (ops : List Operation) (expr : Text) : Permissions :=
  ops.foldl (·.set · expr) p

def isEmpty (p : Permissions) : Bool := Operation.all.all fun op => (p.get op).isNone

/-- The expression that all four operations share, if they do. -/
def uniform? (p : Permissions) : Option Text :=
  p.select.filter fun expr => Operation.all.all fun op => p.get op == some expr

/-- The operations that have an expression, with it. -/
def granted (p : Permissions) : List (Operation × Text) :=
  Operation.all.filterMap fun op => (p.get op).map (op, ·)

theorem ext_get {p q : Permissions} (h : ∀ op, p.get op = q.get op) : p = q := by
  have hs := h .select
  have hc := h .create
  have hu := h .update
  have hd := h .delete
  cases p
  cases q
  simp_all [get]

@[simp] theorem get_set (p : Permissions) (op op' : Operation) (expr : Text) :
    (p.set op expr).get op' = if op = op' then some expr else p.get op' := by
  cases op <;> cases op' <;> rfl

@[simp] theorem get_empty (op : Operation) : empty.get op = none := by cases op <;> rfl

@[simp] theorem get_all (expr : Text) (op : Operation) : (all expr).get op = some expr := by
  cases op <;> rfl

theorem isEmpty_iff {p : Permissions} : p.isEmpty ↔ p = empty := by
  constructor
  · intro h
    exact ext_get fun op => by simpa using List.all_eq_true.mp h op op.mem_all
  · rintro rfl
    decide

theorem uniform?_eq_some_iff {p : Permissions} {expr : Text} :
    p.uniform? = some expr ↔ p = all expr := by
  constructor
  · intro h
    obtain ⟨_, ha⟩ := Option.filter_eq_some_iff.mp h
    exact ext_get fun op => by simpa using List.all_eq_true.mp ha op op.mem_all
  · rintro rfl
    simp [uniform?, all, Operation.all, get]

end Permissions

end SchemaDrift
