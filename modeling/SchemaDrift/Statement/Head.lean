import SchemaDrift.Text.Caseless

namespace SchemaDrift.Head

/-!
# Heads of definitions

The head of a definition gives its noun, its name and, except for a table, the table it belongs to.
The words are read in any case. Where a word can be taken as an optional keyword or as the name
itself, the keyword is tried first.
-/

/-- What follows a keyword, in lower case here, and at least one blank. -/
def word? (keyword t : Text) : Option Text := (Text.stripKeyword keyword t).bind Text.skipBlanks?

/-- What follows `OVERWRITE` or `IF NOT EXISTS`. -/
def guard? (t : Text) : Option Text :=
  (word? "overwrite" t).or (((word? "if" t).bind (word? "not")).bind (word? "exists"))

/-- Reads on after a guard, or without one if that fails. -/
def guarded {α : Type} (read : Text → Option α) (t : Text) : Option α :=
  ((guard? t).bind read).or (read t)

def skipBacktick (t : Text) : Text := (Text.stripStart "\x60" t).getD t

/-- A name, which may stand between backticks, and what follows it. -/
def name? (t : Text) : Option (Text × Text) :=
  (Text.takeName? (skipBacktick t)).map fun (name, rest) => (name, skipBacktick rest)

/-- What follows one step of a path: a dot and a name, or a star in one of its spellings. -/
def step? : Text → Option (Text × Text)
  | '.' :: '*' :: rest => some (['.', '*'], rest)
  | '[' :: '*' :: ']' :: rest => some (['[', '*', ']'], rest)
  | '.' :: rest => (Text.takeName? rest).map fun (name, rest) => ('.' :: name, rest)
  | _ => none

theorem length_step? {t step rest : Text} (h : step? t = some (step, rest)) :
    rest.length < t.length := by
  unfold step? at h
  split at h
  · cases h; simp only [List.length_cons]; omega
  · cases h; simp only [List.length_cons]; omega
  · obtain ⟨⟨n, r⟩, hn, he⟩ := Option.map_eq_some_iff.mp h
    cases he
    have := congrArg List.length (Text.append_of_takeName? hn)
    simp only [List.length_append, List.length_cons] at this ⊢
    omega
  · cases h

/-- The steps of a path at the start of a text and what follows them. -/
def steps (t : Text) : Text × Text :=
  match _h : step? t with
  | none => ([], t)
  | some (step, rest) => ((step ++ (steps rest).1), (steps rest).2)
termination_by t.length
decreasing_by all_goals exact length_step? _h

def path? (t : Text) : Option (Text × Text) := do
  let (name, rest) ← Text.takeName? t
  let (steps, rest) := steps rest
  return (name ++ steps, rest)

/-- The table after `ON` or `ON TABLE`, and what follows it. -/
def target? (t : Text) : Option (Text × Text) := do
  let t ← (Text.skipBlanks? t).bind (word? "on")
  ((word? "table" t).bind name?).or (name? t)

/-- What follows `DEFINE` and the noun. -/
def define? (noun t : Text) : Option Text := (word? "define" (Text.trimStart t)).bind (word? noun)

/-- The head of a definition that belongs to a table, and the rest of the statement. -/
structure Owned where
  name : Text
  table : Text
  body : Text

/-- Reads the name of a definition and its table. -/
def owned (name? : Text → Option (Text × Text)) (t : Text) : Option Owned := do
  let (name, rest) ← name? t
  let (table, body) ← target? rest
  return ⟨name, table, body⟩

/-- The name of a defined table, and the rest of the statement. -/
def table? (t : Text) : Option (Text × Text) := (define? "table" t).bind (guarded name?)

def field? (t : Text) : Option Owned := (define? "field" t).bind (guarded (owned path?))

def index? (t : Text) : Option Owned := (define? "index" t).bind (guarded (owned name?))

def event? (t : Text) : Option Owned := (define? "event" t).bind (guarded (owned name?))

/-- The noun of a definition, and the text after it. -/
def noun? (t : Text) : Option (Text × Text) := do
  let t ← word? "define" (Text.trimStart t)
  match t.takeWhile Text.isLetter with
  | [] => none
  | noun => some (noun, t.dropWhile Text.isLetter)

/-- Whether the character can be part of the name of a definition of any kind. -/
def isNamePart (c : Char) : Bool := !Text.isBlank c && c != ';' && c != '('

/-- The name after the noun of a definition of any kind; empty if there is none. -/
def anyName (t : Text) : Text :=
  let part? (t : Text) : Option Text :=
    match t.takeWhile isNamePart with
    | [] => none
    | name => some name
  ((Text.skipBlanks? t).bind (guarded part?)).getD []

end SchemaDrift.Head
