import SchemaDrift.Text.Blank

namespace SchemaDrift.Script

/-!
# Statements of a script

A semicolon ends a statement unless it stands in quotes or inside brackets. A line comment starts
with two hyphens, two slashes or a number sign and is dropped together with its line end. Inside
quotes a backslash takes the next character along.
-/

/-- What the scan of a script is inside of. -/
inductive Mode where
  | code
  | quoted (q : Char)
  | escaped (q : Char)
  | comment
  deriving DecidableEq

/-- Single quotes, double quotes and backticks. -/
def isQuote (c : Char) : Bool := c == '\'' || c == '"' || c == '\x60'

/-- Whether a comment starts with this character, given the one after it. -/
def startsComment (c : Char) (next : Option Char) : Bool :=
  c == '#' || (c == '-' && next == some '-') || (c == '/' && next == some '/')

/-- How a character in code changes the bracket depth. -/
def bracket (c : Char) : Int :=
  if c = '(' ∨ c = '[' ∨ c = '\x7b' then 1
  else if c = ')' ∨ c = ']' ∨ c = '\x7d' then -1
  else 0

/-- The texts between the ends of statements, without the comments. -/
def pieces (mode : Mode) (depth : Int) : Text → List Text
  | [] => [[]]
  | c :: cs =>
    match mode with
    | .comment => pieces (if c = '\n' then .code else .comment) depth cs
    | .escaped q => Text.consHead c (pieces (.quoted q) depth cs)
    | .quoted q =>
      let mode := if c = '\\' then .escaped q else if c = q then .code else .quoted q
      Text.consHead c (pieces mode depth cs)
    | .code =>
      if isQuote c then Text.consHead c (pieces (.quoted c) depth cs)
      else if startsComment c cs.head? then pieces .comment depth cs
      else if c = ';' ∧ depth ≤ 0 then [] :: pieces .code depth cs
      else Text.consHead c (pieces .code (depth + bracket c) cs)

/-- The statements of a script, trimmed and without their semicolons. -/
def statements (script : Text) : List Text :=
  ((pieces .code 0 script).map Text.trim).filter (!·.isEmpty)

theorem pieces_ne_nil (mode : Mode) (depth : Int) (t : Text) : pieces mode depth t ≠ [] := by
  have consHead_ne : ∀ (c : Char) (l : List Text), Text.consHead c l ≠ [] := by
    intro c l
    cases l <;> simp [Text.consHead]
  induction t generalizing mode depth with
  | nil => simp [pieces]
  | cons c cs ih =>
    cases mode with
    | code =>
      simp only [pieces]
      split
      · exact consHead_ne _ _
      · split
        · exact ih _ _
        · split
          · simp
          · exact consHead_ne _ _
    | quoted q => exact consHead_ne _ _
    | escaped q => exact consHead_ne _ _
    | comment => exact ih _ _

end SchemaDrift.Script
