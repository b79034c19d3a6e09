import SchemaDrift.Text.Blank

namespace SchemaDrift.Keyword

/-!
# Standalone keywords

A keyword counts when it is written in capitals and stands alone: between blanks, commas,
semicolons or the ends of the text. Quotes are not looked at.
-/

/-- Whether a keyword may have this neighbour. -/
def isEdge : Option Char → Bool
  | none => true
  | some c => Text.isBlank c || c == ',' || c == ';'

/-- What follows the keyword, if it stands alone at the start of the text; `before` is the character
in front of the text. -/
def standing? (keyword : Text) (before : Option Char) (t : Text) : Option Text :=
  if isEdge before then (Text.stripStart keyword t).filter fun rest => isEdge rest.head? else none

/-- The text before the first standalone keyword and the text after it. -/
def cut? (keyword : Text) (before : Option Char) : Text → Option (Text × Text)
  | [] => none
  | c :: cs =>
    match standing? keyword before (c :: cs) with
    | some rest => some ([], rest)
    | none => (cut? keyword (some c) cs).map fun cut => (c :: cut.1, cut.2)

/-- Whether the keyword stands alone somewhere in the text. -/
def occurs (keyword t : Text) : Bool := (cut? keyword none t).isSome

/-- The text up to the first place where one of the keywords stands alone. -/
def upTo (keywords : List Text) (before : Option Char) : Text → Text
  | [] => []
  | c :: cs =>
    if keywords.any fun keyword => (standing? keyword before (c :: cs)).isSome then []
    else c :: upTo keywords (some c) cs

/-- The texts between the standalone occurrences of a keyword. The first `skip` characters belong to
the keyword that was just met. -/
def split (keyword : Text) (skip : Nat) (before : Option Char) : Text → List Text
  | [] => [[]]
  | c :: cs =>
    match skip with
    | skip + 1 => split keyword skip (some c) cs
    | 0 =>
      if (standing? keyword before (c :: cs)).isSome then
        [] :: split keyword (keyword.length - 1) (some c) cs
      else Text.consHead c (split keyword 0 (some c) cs)

theorem append_of_standing? {keyword t rest : Text} {before : Option Char}
    (h : standing? keyword before t = some rest) : t = keyword ++ rest := by
  unfold standing? at h
  split at h
  · exact Text.stripStart_eq_some_iff.mp (Option.filter_eq_some_iff.mp h).1
  · cases h

theorem append_of_cut? {keyword t a b : Text} {before : Option Char}
    (h : cut? keyword before t = some (a, b)) : t = a ++ keyword ++ b := by
  induction t generalizing before a with
  | nil => simp [cut?] at h
  | cons c cs ih =>
    unfold cut? at h
    split at h
    · rename_i rest hr
      cases h
      exact append_of_standing? hr
    · obtain ⟨cut, hc, he⟩ := Option.map_eq_some_iff.mp h
      cases he
      simp [ih hc]

theorem isPrefix_upTo (keywords : List Text) (before : Option Char) (t : Text) :
    upTo keywords before t <+: t := by
  induction t generalizing before with
  | nil => exact List.prefix_refl []
  | cons c cs ih =>
    unfold upTo
    split
    · exact List.nil_prefix
    · exact List.cons_prefix_cons.mpr ⟨rfl, ih _⟩

end SchemaDrift.Keyword
