import SchemaDrift.Reading.Member
import SchemaDrift.Statement.Script

namespace SchemaDrift

/-!
# Schemas from scripts

The tables of a script are collected first, so that a definition may stand before the table it
belongs to. The lenient reading passes over what it cannot use and says so; the strict reading stops
at the first statement or definition of that kind.
-/

/-- A schema with what had to be said while it was read. -/
structure Reading where
  schema : Schema := {}
  warnings : List Warning := []
  deriving DecidableEq, Repr

inductive SchemaError where
  /-- A call of the database failed. -/
  | database (operation cause : Text)
  /-- A statement is not read. -/
  | statement (fault : Fault)
  /-- A definition for a table that is not there. -/
  | orphan (noun : Noun) (name table : Text)
  deriving DecidableEq, Repr

namespace SchemaError

def message : SchemaError → Text
  | database operation cause => "Database query '" ++ operation ++ "' failed: " ++ cause
  | statement fault => "Parse error: " ++ fault.message
  | orphan noun name table =>
    "DEFINE " ++ noun.keyword ++ " '" ++ name ++ "' targets unknown table '" ++ table ++ "'"

end SchemaError

/-- What a statement contributes to a schema. -/
inductive Definition where
  | table (t : Table)
  | member (owner : Text) (m : Member)
  /-- A definition of a kind that no schema holds. -/
  | unsupported (keyword name : Text)
  /-- A statement that defines nothing. -/
  | nothing
  deriving DecidableEq, Repr

namespace Definition

/-- Reads a statement by the noun after `DEFINE`. -/
def read (statement : Text) : Except Fault Definition :=
  match Head.noun? statement with
  | none => .ok .nothing
  | some (word, rest) =>
    let keyword := Text.uppercase word
    if keyword = Noun.table.keyword then (Statement.readTable statement).map table
    else if keyword = Noun.field.keyword then do
      let head ← Statement.expect .field statement (Head.field? statement)
      return member head.table (.field (Statement.field head))
    else if keyword = Noun.index.keyword then do
      let head ← Statement.expect .index statement (Head.index? statement)
      return member head.table (.index (← Statement.index statement head))
    else if keyword = Noun.event.keyword then do
      let head ← Statement.expect .event statement (Head.event? statement)
      return member head.table (.event (← Statement.event statement head))
    else .ok (unsupported keyword (Head.anyName rest))

def table? : Definition → Option Table
  | table t => some t
  | _ => none

def member? : Definition → Option (Text × Member)
  | member owner m => some (owner, m)
  | _ => none

def warning? : Definition → Option Warning
  | unsupported keyword name => some (.unsupportedDefinition keyword name)
  | _ => none

end Definition

namespace Reading

/-- Adds a member to its table, or says that there is no such table. -/
def add (r : Reading) (member : Text × Member) : Reading :=
  if (r.schema.table? member.1).isSome then
    { schema := r.schema.modifyTable member.1 (member.2.addTo ·)
      warnings := r.warnings ++ member.2.warnings member.1 }
  else
    { r with
      warnings := r.warnings ++ [.undefinedTable member.2.noun member.1 member.2.name] }

end Reading

namespace Script

/-- The statements of a script, each read or refused. -/
def definitions (script : Text) : List (Except Fault Definition) :=
  (statements script).map Definition.read

/-- One warning for each refused statement, which it names by its place from one on. -/
def failures (place : Nat) : List (Except Fault Definition) → List Warning
  | [] => []
  | .ok _ :: rest => failures (place + 1) rest
  | .error fault :: rest =>
    .parseFailure ("statement " ++ Text.ofNat place) fault :: failures (place + 1) rest

def successes (results : List (Except Fault Definition)) : List Definition :=
  results.filterMap Except.toOption

/-- Reads as much of a script as can be read. -/
def read (script : Text) : Reading :=
  let results := definitions script
  let found := successes results
  let start : Reading :=
    { schema := Schema.ofTables (found.filterMap Definition.table?)
      warnings := failures 1 results ++ found.filterMap Definition.warning? }
  (found.filterMap Definition.member?).foldl Reading.add start

/-- Adds a member to its table, which has to be there. -/
def add? (s : Schema) (member : Text × Member) : Except SchemaError Schema :=
  if (s.table? member.1).isSome then .ok (s.modifyTable member.1 (member.2.addTo ·))
  else .error (.orphan member.2.noun member.2.name member.1)

/-- Reads a script in which every statement and every definition counts. -/
def readStrict (script : Text) : Except SchemaError Schema := do
  let found ← ((statements script).mapM Definition.read).mapError SchemaError.statement
  (found.filterMap Definition.member?).foldlM add?
    (Schema.ofTables (found.filterMap Definition.table?))

end Script

end SchemaDrift
