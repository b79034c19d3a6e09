import SchemaDrift.Text.Blank

namespace SchemaDrift.Text

/-!
# Letters without case

Keywords and names in the head of a statement are compared by simple case folding. Among the
letters A to Z it joins the two cases, and two characters outside ASCII fold to a letter: the long s
to `s` and the Kelvin sign to `k`.
-/

/-- The ASCII letter or other character to which a character folds. -/
def fold (c : Char) : Char :=
  if c = '\u017f' then 's' else if c = '\u212a' then 'k' else c.toLower

/-- Whether the character folds to a letter A to Z. -/
def isLetter (c : Char) : Bool := (fold c).isAlpha

/-- Whether the character can be part of a name: a letter, a digit or an underscore. -/
def isNameChar (c : Char) : Bool := (fold c).isAlphanum || c == '_'

/-- What follows a keyword, which is given in lower case, if the text starts with it in any case. -/
def stripKeyword : Text → Text → Option Text
  | [], t => some t
  | _ :: _, [] => none
  | k :: ks, c :: cs => if k = fold c then stripKeyword ks cs else none

/-- A name and what follows it, if the text starts with a name. -/
def takeName? (t : Text) : Option (Text × Text) :=
  match t.takeWhile isNameChar with
  | [] => none
  | c :: cs => some (c :: cs, t.dropWhile isNameChar)

theorem append_of_takeName? {t name rest : Text} (h : takeName? t = some (name, rest)) :
    t = name ++ rest := by
  unfold takeName? at h
  split at h
  · simp at h
  · rename_i c cs hc
    simp only [Option.some.injEq, Prod.mk.injEq] at h
    rw [← h.1, ← h.2, ← hc, List.takeWhile_append_dropWhile]

end SchemaDrift.Text
