import SchemaDrift.Text.Blank

namespace SchemaDrift.TypeExpr

/-!
# Type expressions

A type is a union of terms, and a term is a name, alone or with arguments between angle brackets.
The normal form has no blanks, writes a union with `none` as an option, and drops the argument of
an array or a set of anything. Two types are the same if their normal forms are.
-/

/-- How a character changes the bracket depth. -/
def bracket (c : Char) : Int :=
  if c = '<' ∨ c = '(' ∨ c = '[' ∨ c = '\x7b' then 1
  else if c = '>' ∨ c = ')' ∨ c = ']' ∨ c = '\x7d' then -1
  else 0

/-- The parts between the separators that stand at bracket depth zero. -/
def splitFrom (sep : Char) (depth : Int) : Text → List Text
  | [] => [[]]
  | c :: cs =>
    if c = sep ∧ depth = 0 then [] :: splitFrom sep depth cs
    else Text.consHead c (splitFrom sep (depth + bracket c) cs)

/-- The parts of a text between the separators outside all brackets. -/
def splitTop (sep : Char) (t : Text) : List Text := splitFrom sep 0 t

/-- The name and the arguments of a term, if it has arguments. -/
def application? (term : Text) : Option (Text × Text) := do
  let (name, rest) ← Text.cutAt "<" term
  let args ← Text.stripEnd ">" rest
  return (name, args)

theorem length_le_of_mem_consHead {c : Char} {parts : List Text} {n : Nat} {p : Text}
    (h : ∀ q ∈ parts, q.length ≤ n) (hp : p ∈ Text.consHead c parts) : p.length ≤ n + 1 := by
  cases parts with
  | nil => simp only [Text.consHead, List.mem_singleton] at hp; simp [hp]
  | cons q qs =>
    rcases List.mem_cons.mp hp with rfl | hq
    · simpa using h q List.mem_cons_self
    · exact Nat.le_succ_of_le (h p (List.mem_cons_of_mem q hq))

theorem length_le_of_mem_splitFrom {sep : Char} {depth : Int} {t p : Text}
    (h : p ∈ splitFrom sep depth t) : p.length ≤ t.length := by
  induction t generalizing depth p with
  | nil => simp only [splitFrom, List.mem_singleton] at h; simp [h]
  | cons c cs ih =>
    simp only [splitFrom] at h
    split at h
    · rcases List.mem_cons.mp h with rfl | h
      · simp
      · exact Nat.le_succ_of_le (ih h)
    · exact length_le_of_mem_consHead (fun q hq => ih hq) h

theorem length_le_of_mem_splitTop {sep : Char} {t p : Text} (h : p ∈ splitTop sep t) :
    p.length ≤ t.length := length_le_of_mem_splitFrom h

theorem eq_of_application? {term name args : Text} (h : application? term = some (name, args)) :
    term = name ++ '<' :: (args ++ ['>']) := by
  simp only [application?, Option.bind_eq_bind, Option.bind_eq_some_iff] at h
  obtain ⟨⟨n, r⟩, hc, a, ha, he⟩ := h
  cases he
  have hr : r = args ++ ['>'] := Text.stripEnd_eq_some_iff.mp ha
  rw [Text.append_of_cutAt hc, hr]
  simp

theorem length_lt_of_application? {term name args : Text}
    (h : application? term = some (name, args)) : args.length < term.length := by
  rw [eq_of_application? h]
  simp only [List.length_append, List.length_cons, List.length_nil]
  omega

/-- The normal form of a union, given the normal forms of its terms. -/
def joinTerms (terms : List Text) : Text :=
  if 1 < terms.length ∧ terms.contains "none" then
    "option<" ++ Text.join "|" (terms.filter (· != "none")) ++ ">"
  else Text.join "|" terms

/-- The normal form of a term, given the normal forms of its arguments. -/
def applyName (name : Text) (args : List Text) : Text :=
  if (name = "array" ∨ name = "set") ∧ args = [("any" : Text)] then name
  else name ++ "<" ++ Text.join "," args ++ ">"

mutual

def normalUnion (t : Text) : Text :=
  joinTerms ((splitTop '|' t).attach.map fun ⟨term, _⟩ => normalTerm term)
termination_by (t.length, 1)
decreasing_by
  rcases Nat.lt_or_eq_of_le (length_le_of_mem_splitTop ‹_›) with h | h
  · exact Prod.Lex.left _ _ h
  · rw [h]
    exact Prod.Lex.right _ (by decide)

def normalTerm (term : Text) : Text :=
  match _h : application? term with
  | none => term
  | some (name, args) =>
    applyName name ((splitTop ',' args).attach.map fun ⟨arg, _⟩ => normalUnion arg)
termination_by (term.length, 0)
decreasing_by
  have := length_le_of_mem_splitTop ‹_›
  have := length_lt_of_application? _h
  exact Prod.Lex.left _ _ (by omega)

end

theorem normalUnion_eq (t : Text) :
    normalUnion t = joinTerms ((splitTop '|' t).map normalTerm) := by
  rw [normalUnion]
  simp

theorem normalTerm_of_atom {term : Text} (h : application? term = none) :
    normalTerm term = term := by
  rw [normalTerm]
  split
  · rfl
  · rename_i he
    rw [h] at he
    cases he

theorem normalTerm_of_application {term name args : Text}
    (h : application? term = some (name, args)) :
    normalTerm term = applyName name ((splitTop ',' args).map normalUnion) := by
  rw [normalTerm]
  split
  · rename_i he
    rw [h] at he
    cases he
  · rename_i he
    rw [h] at he
    cases he
    simp

def normal (type : Text) : Text := normalUnion (type.filter fun c => !Text.isBlank c)

/-- The argument of an application of `name` in a normal form. -/
def argumentOf? (name type : Text) : Option Text :=
  (Text.stripStart (name ++ "<") type).bind (Text.stripEnd ">")

theorem length_lt_of_argumentOf? {name type inner : Text} (h : argumentOf? name type = some inner) :
    inner.length < type.length := by
  obtain ⟨r, hr, hi⟩ := Option.bind_eq_some_iff.mp h
  rw [Text.stripStart_eq_some_iff.mp hr, Text.stripEnd_eq_some_iff.mp hi]
  simp only [List.length_append]
  have : (">" : Text).length = 1 := rfl
  omega

/-- The type inside all options around it. -/
def unwrapOption (type : Text) : Text :=
  match _h : argumentOf? "option" type with
  | some inner => unwrapOption inner
  | none => type
termination_by type.length
decreasing_by exact length_lt_of_argumentOf? _h

/-- The normal type of the elements, if the type is an array or a set. -/
def element? (type : Text) : Option Text :=
  let base := unwrapOption (normal type)
  if base = "array" ∨ base = "set" then some "any"
  else do
    let rest ← (Text.stripStart "array<" base).or (Text.stripStart "set<" base)
    let args ← Text.stripEnd ">" rest
    (splitTop ',' args).head?

/-- Whether the type is an object or an option of one. -/
def isObject (type : Text) : Bool := unwrapOption (normal type) == "object"

end SchemaDrift.TypeExpr
