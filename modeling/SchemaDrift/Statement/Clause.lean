import SchemaDrift.Statement.Keyword
import SchemaDrift.Schema.Permissions

namespace SchemaDrift.Clause

/-!
# Clauses

A clause starts with a standalone keyword, and its body reaches to the nearest keyword that starts
another clause. The permissions clause is read further into the expressions of the operations.
-/

/-- A text without the blanks around it and the semicolons at its end. -/
def clean (t : Text) : Text := Text.trimEnd (Text.dropEndWhile (· == ';') (Text.trim t))

/-- The body of the first clause with this keyword, unless it is empty. -/
def body? (keyword : Text) (terminators : List Text) (t : Text) : Option Text :=
  match Keyword.cut? keyword none t with
  | none => none
  | some (_, rest) =>
    let body := clean (Keyword.upTo (terminators.filter (· != keyword)) none rest)
    if body.isEmpty then none else some body

/-- The operations listed at the start of a text, separated by commas, and what follows them. -/
def operations (t : Text) : List Operation × Text :=
  match Operation.ofKeyword? (t.takeWhile Char.isAlpha) with
  | none => ([], t)
  | some op =>
    match _h : Text.trimStart (t.dropWhile Char.isAlpha) with
    | ',' :: rest =>
      let (ops, rest) := operations (Text.trimStart rest)
      (op :: ops, rest)
    | rest => ([op], rest)
termination_by t.length
decreasing_by
  have h₁ := (List.dropWhile_sublist (p := Text.isBlank) (l := rest)).length_le
  have h₂ := (List.dropWhile_sublist (p := Text.isBlank) (l := t.dropWhile Char.isAlpha)).length_le
  have h₃ := (List.dropWhile_sublist (p := Char.isAlpha) (l := t)).length_le
  have h₄ := congrArg List.length _h
  simp only [Text.trimStart, List.length_cons] at h₄ ⊢
  omega

/-- Sets the expression of one `FOR` clause for the operations it lists. -/
def grant (p : Permissions) (clause : Text) : Permissions :=
  let clause := Text.trimEnd (Text.dropEndWhile (· == ',') (Text.trim clause))
  let (ops, rest) := operations clause
  let expr := Text.trim rest
  if expr.isEmpty then p else p.setAll ops expr

/-- The permissions that the body of a clause grants: one word for all operations, or a list of
`FOR` clauses of which the later ones count. -/
def grants (body : Text) : Permissions :=
  if Text.sameLetters body "FULL" then .all "FULL"
  else if Text.sameLetters body "NONE" then .all "NONE"
  else ((Keyword.split "FOR" 0 none body).drop 1).foldl grant .empty

/-- The permissions clause of a statement, up to a comment clause. -/
def permissions (t : Text) : Permissions :=
  match Keyword.cut? "PERMISSIONS" none t with
  | none => .empty
  | some (_, rest) =>
    match Keyword.cut? "COMMENT" none rest with
    | none => grants (clean rest)
    | some (body, _) => grants (clean body)

end SchemaDrift.Clause
