import SchemaDrift.Reading.Script

namespace SchemaDrift

/-!
# Schemas from databases

A database lists its definitions by name, and the members of a table in an answer of its own. What
cannot be read is passed over with a warning; only a database that does not list its definitions
cannot be read at all.
-/

/-- The statements that define what a database holds, by name. -/
structure DatabaseInfo where
  tables : Dict Text := ∅
  analyzers : Dict Text := ∅
  functions : Dict Text := ∅
  params : Dict Text := ∅
  accesses : Dict Text := ∅
  users : Dict Text := ∅
  deriving DecidableEq

/-- The statements that define the members of a table, by name. -/
structure TableInfo where
  fields : Dict Text := ∅
  indexes : Dict Text := ∅
  events : Dict Text := ∅
  deriving DecidableEq

/-- The answers that a database gives about itself and its tables. -/
structure Snapshot where
  database : DatabaseInfo := {}
  tables : Dict TableInfo := ∅
  deriving DecidableEq

namespace DatabaseInfo

def codec : Codec DatabaseInfo :=
  .record
    (.cons (.defaulted "tables" (.dict .text) ∅) <|
      .cons (.defaulted "analyzers" (.dict .text) ∅) <|
      .cons (.defaulted "functions" (.dict .text) ∅) <|
      .cons (.defaulted "params" (.dict .text) ∅) <|
      .cons (.defaulted "accesses" (.dict .text) ∅) <|
      .cons (.defaulted "users" (.dict .text) ∅) .nil)
    (fun (t, a, f, p, x, u, ()) => ⟨t, a, f, p, x, u⟩)
    (fun d => (d.tables, d.analyzers, d.functions, d.params, d.accesses, d.users, ()))

/-- The definitions that no schema holds, by keyword. -/
def unsupported (info : DatabaseInfo) : List (Text × Dict Text) :=
  [("ANALYZER", info.analyzers), ("FUNCTION", info.functions), ("PARAM", info.params),
    ("ACCESS", info.accesses), ("USER", info.users)]

/-- One warning for each definition that no schema holds. -/
def warnings (info : DatabaseInfo) : List Warning :=
  info.unsupported.flatMap fun (keyword, definitions) =>
    definitions.keys.map (Warning.unsupportedDefinition keyword)

end DatabaseInfo

def TableInfo.codec : Codec TableInfo :=
  .record
    (.cons (.defaulted "fields" (.dict .text) ∅) <| .cons (.defaulted "indexes" (.dict .text) ∅) <|
      .cons (.defaulted "events" (.dict .text) ∅) .nil)
    (fun (f, i, e, ()) => ⟨f, i, e⟩)
    (fun t => (t.fields, t.indexes, t.events, ()))

def Snapshot.codec : Codec Snapshot :=
  .record
    (.cons (.defaulted "database" DatabaseInfo.codec {}) <|
      .cons (.defaulted "tables" (.dict TableInfo.codec) ∅) .nil)
    (fun (d, t, ()) => ⟨d, t⟩)
    (fun s => (s.database, s.tables, ()))

inductive Call where
  | database
  | table (name : Text)
  | execute
  deriving DecidableEq, Repr

/-- A database that answers from a snapshot. Some of its calls may fail. -/
structure Client where
  snapshot : Snapshot := {}
  fails : Call → Bool := fun _ => false

namespace Client

/-- What a failing call reports. -/
def connectionLost : Text := "connection lost"

/-- The answer to a call, unless it fails. -/
def answer {α : Type} (c : Client) (call : Call) (result : Except Text α) : Except Text α :=
  if c.fails call then .error connectionLost else result

def database (c : Client) : Except Text DatabaseInfo := c.answer .database (.ok c.snapshot.database)

def table (c : Client) (name : Text) : Except Text TableInfo :=
  c.answer (.table name) <|
    match c.snapshot.tables.get? name with
    | some info => .ok info
    | none => .error ("Table '" ++ name ++ "' is not in the snapshot")

def execute (c : Client) : Except Text Unit := c.answer .execute (.ok ())

end Client

namespace Reading

/-- A table with what had to be said while its members were read. -/
abbrev Partial := Table × List Warning

/-- Adds one member, or says that its statement is not read. -/
def addMember (subject : Text) (t : Partial) : Except Fault Member → Partial
  | .ok m => (m.addTo t.1, t.2 ++ m.warnings t.1.name)
  | .error fault => (t.1, t.2 ++ [.parseFailure subject fault])

/-- Adds the members of one kind. The table is listed under `key`. -/
def addMembers (noun : Noun) (read : Text → Except Fault Member) (key : Text)
    (statements : Dict Text) (t : Partial) : Partial :=
  statements.entries.foldl
    (fun t (name, statement) =>
      addMember (noun.label ++ " " ++ key ++ "." ++ name) t (read statement)) t

def addInfo (key : Text) (info : TableInfo) (t : Partial) : Partial :=
  addMembers .event Member.readEvent key info.events <|
    addMembers .index Member.readIndex key info.indexes <|
      addMembers .field Member.readField key info.fields t

/-- Reads the table that is listed under `key`. -/
def addTable (client : Client) (r : Reading) (entry : Text × Text) : Reading :=
  match Statement.readTable entry.2 with
  | .error fault =>
    { r with warnings := r.warnings ++ [.parseFailure ("table " ++ entry.1) fault] }
  | .ok table =>
    match client.table table.name with
    | .error cause => { r with warnings := r.warnings ++ [.unansweredTable entry.1 cause] }
    | .ok info =>
      let (table, warnings) := addInfo entry.1 info (table, r.warnings)
      { schema := r.schema.addTable table, warnings }

end Reading

namespace Client

def introspect (client : Client) : Except SchemaError Reading := do
  let info ← client.database.mapError (SchemaError.database "INFO FOR DB")
  return info.tables.entries.foldl (Reading.addTable client) { warnings := info.warnings }

end Client

end SchemaDrift
