import SchemaDrift.Text.Basic

namespace SchemaDrift.Path

/-!
# Field paths

A path names a field inside a table: names joined by dots, where a star stands for the elements of
an array or a set. The star is written `.*` or `[*]`; the normal spelling is `.*`.
-/

/-- The path with every `[*]` written as `.*`. -/
def normal : Text → Text
  | '[' :: '*' :: ']' :: rest => '.' :: '*' :: normal rest
  | c :: rest => c :: normal rest
  | [] => []

/-- Whether the path names the elements of a container. -/
def isWildcard (path : Text) : Bool :=
  (Text.stripEnd ".*" path).isSome || (Text.stripEnd "[*]" path).isSome

/-- Whether the path goes into a field. -/
def isNested (path : Text) : Bool := path.contains '.' || path.contains '['

/-- Whether the path names a field of the table itself. -/
def isTopLevel (path : Text) : Bool := !isNested path && !isWildcard path

/-- What stands before the last dot. -/
def beforeLastDot : Text → Option Text
  | [] => none
  | c :: rest =>
    match beforeLastDot rest with
    | some t => some (c :: t)
    | none => if c = '.' then some [] else none

/-- What follows the last dot, or the whole path. -/
def lastName (path : Text) : Text :=
  match path with
  | [] => []
  | c :: rest => if path.contains '.' then lastName rest else c :: rest

/-- The normal path of the field around this one. -/
def parent? (path : Text) : Option Text := beforeLastDot (normal path)

def root (path : Text) : Text := path.takeWhile fun c => c != '.' && c != '['

@[simp] theorem normal_nil : normal [] = [] := rfl

theorem normal_star (rest : Text) : normal ('[' :: '*' :: ']' :: rest) =
    '.' :: '*' :: normal rest :=
  rfl

theorem normal_cons_of_ne {c : Char} (rest : Text) (h : c ≠ '[') :
    normal (c :: rest) = c :: normal rest := by
  rw [normal]
  intro _ hc
  exact absurd hc h

/-- A path without a bracket is in its normal spelling. -/
theorem normal_eq_self {path : Text} (h : '[' ∉ path) : normal path = path := by
  induction path with
  | nil => rfl
  | cons c rest ih =>
    rw [normal_cons_of_ne rest (fun hc => h (hc ▸ List.mem_cons_self)),
      ih fun hm => h (List.mem_cons_of_mem c hm)]

end SchemaDrift.Path
