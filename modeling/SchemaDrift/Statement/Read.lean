import SchemaDrift.Schema.Table
import SchemaDrift.Statement.Clause
import SchemaDrift.Statement.Head
import SchemaDrift.Text.Word

namespace SchemaDrift

/-!
# Reading definitions

A definition is read from its head and its clauses. Clauses may come in any order, and what is not
understood is passed over.
-/

/-- The kinds of definitions that make up a schema. -/
inductive Noun where
  | table
  | field
  | index
  | event
  deriving DecidableEq, Repr

namespace Noun

def keyword : Noun → Text
  | table => "TABLE"
  | field => "FIELD"
  | index => "INDEX"
  | event => "EVENT"

/-- The noun as it stands in front of the subject of a warning. -/
def label (n : Noun) : Text := Text.lowercase n.keyword

end Noun

/-- Why a statement is not read. -/
inductive Fault where
  /-- The head does not have the form of the expected definition. -/
  | unexpected (noun : Noun) (statement : Text)
  /-- An index without columns. -/
  | missingColumns (name statement : Text)
  /-- An event without an action. -/
  | missingThen (name statement : Text)
  deriving DecidableEq, Repr

namespace Fault

def statement : Fault → Text
  | unexpected _ s => s
  | missingColumns _ s => s
  | missingThen _ s => s

def message : Fault → Text
  | unexpected noun s => "Not a valid DEFINE " ++ noun.keyword ++ " statement: " ++ s
  | missingColumns name _ => "Index '" ++ name ++ "' has no FIELDS or COLUMNS clause"
  | missingThen name _ => "Event '" ++ name ++ "' has no THEN clause"

end Fault

namespace Statement

/-- The keywords that end a clause of a field. -/
def fieldClauses : List Text :=
  ["TYPE", "DEFAULT", "READONLY", "VALUE", "ASSERT", "REFERENCE", "PERMISSIONS", "COMMENT"]

/-- The keywords that end the columns of an index. -/
def indexClauses : List Text :=
  ["UNIQUE", "SEARCH", "FULLTEXT", "HNSW", "MTREE", "COUNT", "CONCURRENTLY", "COMMENT"]

/-- Whether `TYPE RELATION` stands in the text; `before` is the character in front of it. -/
def hasRelation (before : Option Char) : Text → Bool
  | [] => false
  | c :: cs =>
    let here := (((Text.stripStart "TYPE" (c :: cs)).bind Text.skipBlanks?).bind
      (Text.stripStart "RELATION")).any Text.atWordEnd
    (!before.any Text.isWord && here) || hasRelation (some c) cs

/-- The text from the `SELECT` after the first `AS`; `before` is the character in front of it. -/
def query? (before : Option Char) : Text → Option Text
  | [] => none
  | c :: cs =>
    let here := ((Text.stripStart "AS" (c :: cs)).bind Text.skipBlanks?).filter fun query =>
      (Text.stripStart "SELECT" query).any Text.atWordEnd
    if before.any Text.isWord then query? (some c) cs
    else here.or (query? (some c) cs)

/-- The query of a view: from its `SELECT` to the permissions or the comment. -/
def viewQuery? (body : Text) : Option Text :=
  (query? none body).map fun query =>
    Clause.clean (Keyword.upTo ["PERMISSIONS", "COMMENT"] none query)

/-- The part of a table definition in which flags are read: what stands before the query. -/
def flags (body : Text) : Option Text → Text
  | none => body
  | some query => Text.before query body

/-- Reads the definition of a table, without its fields, indexes and events. -/
def readTable (statement : Text) : Except Fault Table :=
  match Head.table? statement with
  | none => .error (.unexpected .table (Text.trim statement))
  | some (name, body) =>
    let query := viewQuery? body
    let flags := flags body query
    .ok {
      name
      kind := if hasRelation none body then .relation else if query.isSome then .view else .normal
      drop := Keyword.occurs "DROP" flags
      schemafull := !Keyword.occurs "SCHEMALESS" flags
      viewQuery := query
      permissions := Clause.permissions body }

/-- The head of a statement; without one the statement is not the expected definition. -/
def expect {α : Type} (noun : Noun) (statement : Text) : Option α → Except Fault α
  | none => .error (.unexpected noun (Text.trim statement))
  | some head => .ok head

/-- The field that a head and its clauses define. A field without a type can be anything. -/
def field (head : Head.Owned) : Field where
  name := head.name
  type := (Clause.body? "TYPE" fieldClauses head.body).getD "any"
  flexible := Keyword.occurs "FLEXIBLE" head.body
  default := Clause.body? "DEFAULT" fieldClauses head.body
  value := Clause.body? "VALUE" fieldClauses head.body
  assertion := Clause.body? "ASSERT" fieldClauses head.body
  readonly := Keyword.occurs "READONLY" head.body
  permissions := Clause.permissions head.body

def columns (list : Text) : List Text :=
  ((Text.splitOn ',' list).map Text.trim).filter (!·.isEmpty)

/-- The index that a head and its clauses define. -/
def index (statement : Text) (head : Head.Owned) : Except Fault Index :=
  let list := (Clause.body? "FIELDS" indexClauses head.body).or
    (Clause.body? "COLUMNS" indexClauses head.body)
  match list with
  | none => .error (.missingColumns head.name (Text.trim statement))
  | some list => .ok {
      name := head.name
      columns := columns list
      unique := Keyword.occurs "UNIQUE" head.body
      search := Keyword.occurs "SEARCH" head.body || Keyword.occurs "FULLTEXT" head.body
      vector := Keyword.occurs "HNSW" head.body || Keyword.occurs "MTREE" head.body }

/-- The event that a head and its clauses define. Without a condition it always runs. -/
def event (statement : Text) (head : Head.Owned) : Except Fault Event :=
  match Clause.body? "THEN" ["COMMENT"] head.body with
  | none => .error (.missingThen head.name (Text.trim statement))
  | some action => .ok {
      name := head.name
      condition := (Clause.body? "WHEN" ["THEN"] head.body).getD "true"
      action }

def readField (statement : Text) : Except Fault Field :=
  (expect .field statement (Head.field? statement)).map field

def readIndex (statement : Text) : Except Fault Index :=
  (expect .index statement (Head.index? statement)).bind (index statement)

def readEvent (statement : Text) : Except Fault Event :=
  (expect .event statement (Head.event? statement)).bind (event statement)

/-- The kind and the table of a definition that belongs to a table. -/
def target? (statement : Text) : Option (Noun × Text) :=
  ((Head.field? statement).map fun head => (Noun.field, head.table)).or <|
    ((Head.index? statement).map fun head => (Noun.index, head.table)).or <|
      (Head.event? statement).map fun head => (Noun.event, head.table)

end Statement

end SchemaDrift
