import SchemaDrift.Code.Bracket

namespace SchemaDrift.Code

/-!
# Searching source code

A search finds the first place from which a pattern matches and that is code. The parts of a table's
file are found in this way: the list of fields, the functions, and the list of definitions.
-/

/-- What follows a pattern at the start of a text, given the character before the text. -/
abbrev Pattern := Option Char → Text → Option Text

/-- Finds a pattern at a place that `accepts`. After a match at another place the search goes on
behind that match. -/
def findFrom (pattern : Pattern) (accepts : Nat → Bool) (place skip : Nat) (before : Option Char) :
    Text → Option (Nat × Nat)
  | [] => none
  | c :: cs =>
    match skip with
    | skip + 1 => findFrom pattern accepts (place + 1) skip (some c) cs
    | 0 =>
      match pattern before (c :: cs) with
      | none => findFrom pattern accepts (place + 1) 0 (some c) cs
      | some rest =>
        let length := (c :: cs).length - rest.length
        if accepts place then some (place, place + length)
        else findFrom pattern accepts (place + 1) (length - 1) (some c) cs

/-- The place of the first match in code from a place on, and the place after the match. -/
def find? (pattern : Pattern) (t : Text) (place : Nat) : Option (Nat × Nat) :=
  findFrom pattern (isCode t) place 0 (t.take place).getLast? (t.drop place)

/-- The start of a list literal, up to its bracket. -/
def listStart? (t : Text) : Option Text := do
  let rest ← Text.stripStart "vec!" t
  Text.stripStart "[" (Text.trimStart rest)

def listPattern : Pattern := fun _ t => listStart? t

def fieldsPattern : Pattern := fun _ t => do
  let rest ← Text.stripStart ".fields(" t
  listStart? (Text.trimStart rest)

/-- What follows a visibility and the blanks after it, if there is a visibility. -/
def skipVisibility? (t : Text) : Option Text :=
  match Text.stripStart "pub" t with
  | none => some t
  | some rest =>
    match rest with
    | '(' :: inner =>
      match inner.dropWhile (· != ')') with
      | ')' :: rest => Text.skipBlanks? rest
      | _ => none
    | _ => Text.skipBlanks? rest

/-- The head of a function, up to its first bracket. -/
def functionPattern (name : Text) : Pattern := fun before t =>
  if before.any Text.isWord then none
  else do
    let rest ← skipVisibility? t
    let rest ← (Text.stripStart "fn" rest).bind Text.skipBlanks?
    let rest ← Text.stripStart name rest
    Text.stripStart "(" (Text.trimStart rest)

def function? (t name : Text) : Option Nat := (find? (functionPattern name) t 0).map (·.1)

/-- The brackets of a list whose literal was found. -/
def brackets? (t : Text) (found : Nat × Nat) : Option (Nat × Nat) :=
  let opening := found.2 - 1
  (matchingClose? t opening).map (opening, ·)

def fieldsList? (t : Text) : Option (Nat × Nat) := (find? fieldsPattern t 0).bind (brackets? t)

/-- The brackets of the list in the body of a function. -/
def listIn? (t name : Text) : Option (Nat × Nat) := do
  let start ← function? t name
  let body ← (itemsFrom t start).find? (·.mark == '\x7b')
  let close ← matchingClose? t body.start
  let found ← (find? listPattern t body.start).filter (·.2 ≤ close)
  brackets? t found

/-- The part of a quoted literal up to its closing quote, as it is written. -/
def quotedName? : Text → Option Text
  | [] => none
  | '"' :: _ => some []
  | '\\' :: c :: rest => if c = '\n' then none else (quotedName? rest).map ('\\' :: c :: ·)
  | c :: rest => if c = '\\' then none else (quotedName? rest).map (c :: ·)

/-- The name at the start of an entry of the list of fields. -/
def entryName? (entry : Text) : Option Text := do
  let rest ← Text.stripStart "(" entry
  let rest ← Text.stripStart "\"" (Text.trimStart rest)
  quotedName? rest

end SchemaDrift.Code
