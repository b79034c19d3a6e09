import SchemaDrift.Text.Blank

namespace SchemaDrift.Code

/-!
# Lines of source code

A place in a text lies on a line. A line is indented by the spaces and tabs at its start, and ends
with its newline.
-/

def lineStart (t : Text) (place : Nat) : Nat :=
  place - ((t.take place).reverse.takeWhile (· != '\n')).length

def lineEnd (t : Text) (place : Nat) : Nat :=
  let rest := t.drop place
  let line := rest.takeWhile (· != '\n')
  if line.length < rest.length then place + line.length + 1 else t.length

/-- The spaces and tabs at the start of the line of a place. -/
def indentation (t : Text) (place : Nat) : Text :=
  (t.drop (lineStart t place)).takeWhile Text.isIndent

/-- Whether only blanks precede the place on its line. -/
def startsLine (t : Text) (place : Nat) : Bool :=
  Text.allBlank (Text.slice t (lineStart t place) place)

/-- Whether only blanks follow the place on its line. -/
def endsLine (t : Text) (place : Nat) : Bool :=
  Text.allBlank (Text.slice t place (lineEnd t place))

/-- Whether the line is a documentation comment or an attribute. -/
def isAttached (line : Text) : Bool :=
  let line := Text.trim line
  (Text.stripStart "///" line).isSome || (Text.stripStart "#[" line).isSome

/-- The place at which the item on the line of a place starts, with the documentation and the
attributes directly above it. -/
def itemStart (t : Text) (place : Nat) : Nat :=
  let start := lineStart t place
  start - ((Text.lines (t.take start)).reverse.takeWhile isAttached).flatten.length

/-- A line turned into a comment behind its indentation. A blank line stays as it is. -/
def commentLine (line : Text) : Text :=
  let code := line.dropWhile Text.isIndent
  if Text.allBlank code then line else line.takeWhile Text.isIndent ++ ("// " ++ code)

def endLine (t : Text) : Text := if t.getLast? = some '\n' then t else t ++ ['\n']

/-- A comment that stands above what was changed. -/
def markerLine (indent marker : Text) : Text := indent ++ "// " ++ marker ++ "\n"

/-- Turns the lines of a span into comments, with a marker above them, unless the span shares a line
with other code. -/
def commentOut? (t : Text) (start stop : Nat) (marker : Text) : Option Text :=
  if startsLine t start && endsLine t stop then
    let first := lineStart t start
    let last := lineEnd t stop
    let block := markerLine (indentation t start) marker ++
      (Text.lines (Text.slice t first last)).flatMap commentLine
    some (Text.replaceSpan t first last (endLine block))
  else none

end SchemaDrift.Code
