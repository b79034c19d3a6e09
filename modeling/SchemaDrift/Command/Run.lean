import SchemaDrift.Command.Arguments
import SchemaDrift.Command.Line
import SchemaDrift.Files.SchemaDirectory
import SchemaDrift.Json.Printer
import SchemaDrift.Json.Reader
import SchemaDrift.Migration.Basic
import SchemaDrift.Plan.Basic
import SchemaDrift.Schema.Serial

namespace SchemaDrift.Command

/-!
# Running a command

A command works on files and collects the lines of its output. Lines that came before a failure are
kept.
-/

/-- A computation with files that collects output and may fail. -/
abbrev CommandT (m : Type → Type) := ExceptT Failure (StateT (List Line) m)

variable {m : Type → Type} [Monad m] [MonadFiles m]

def emit (lines : List Line) : CommandT m Unit := modify (· ++ lines)

def say (text : Text) : CommandT m Unit := emit [.result text]

def log (level : Level) (message : Text) : CommandT m Unit := emit [.log level message]

def loadClient (path : Text) : CommandT m Client := do
  if ← MonadFiles.contains path then
    let text ← Failure.lift .io (← MonadFiles.read path)
    return { snapshot := ← Failure.decode Snapshot.codec (Json.read? text) }
  else throw (.snapshotNotFound path)

def loadSchema (path : Text) : CommandT m Schema := do
  let text ← Failure.lift .io (← MonadFiles.read path)
  Failure.decode Schema.codec (Json.read? text)

/-- The schema of the database that a file describes, once its warnings are logged. -/
def loadDatabase (path : Text) : CommandT m Schema := do
  let client ← loadClient path
  let reading ← Failure.lift .schema client.introspect
  emit (reading.warnings.map Line.found ++ reading.warnings.map Line.reported)
  return reading.schema

def changeLines (c : FileChange) : Text :=
  Text.padStart 7 c.action.tag ++ ' ' :: c.file ++ ['\n'] ++
    c.notes.flatMap fun note => List.replicate 8 ' ' ++ note ++ ['\n']

/-- Brings the schema directory in step with the database. -/
def pull (settings : Settings) (codeSchema : Option Text) (index dryRun : Bool) :
    CommandT m Unit := do
  let database ← loadDatabase settings.snapshot
  let existing ← SchemaDirectory.read settings.schemaDirectory
  let code ← codeSchema.mapM loadSchema
  let changes := plan database existing code { index }
  if changes.isEmpty then log .info "Schema sources are up to date."
  else
    say (changes.flatMap changeLines)
    if dryRun then log .info "Dry run mode - no files written."
    else
      let count ← SchemaDirectory.apply settings.schemaDirectory changes
      log .info ("Updated " ++ Text.ofNat count ++ " file(s) in " ++ settings.schemaDirectory)

def differenceLine (c : Change) : Text :=
  Text.padEnd 24 c.kind.tag ++ ' ' :: c.description ++ ['\n']

def diff (settings : Settings) (codeSchema : Text) (direction : Change.Direction) (json : Bool) :
    CommandT m Unit := do
  let database ← loadDatabase settings.snapshot
  let code ← loadSchema codeSchema
  let changes := match direction with
    | .push => code.compare database .push
    | .pull => database.compare code .pull
  if json then say ((Json.list (changes.map Change.codec.encode)).pretty ++ ['\n'])
  else if changes.isEmpty then log .info "No changes detected."
  else say (changes.flatMap differenceLine)

/-- Shows or writes the migration of the database to the code, and applies it if asked to. A
migration file that is written is called `file`. -/
def migrate (settings : Settings) (file codeSchema : Text) (output : Option Text)
    (apply dryRun : Bool) : CommandT m Unit := do
  let client ← loadClient settings.snapshot
  let code ← loadSchema codeSchema
  let migration ← Failure.lift .schema (Migration.plan client code)
  emit (migration.warnings.map Line.found ++ migration.warnings.map Line.reported)
  if migration.isEmpty then log .info "Database schema is up to date."
  else
    match output with
    | none => say migration.script
    | some directory =>
      let path := SchemaDirectory.join directory file
      if dryRun then
        say ("Would create migration: " ++ path ++ ['\n'] ++ '\n' :: migration.script ++ ['\n'])
      else
        Failure.lift .userFile (← MonadFiles.makeDirectories directory)
        Failure.lift .userFile (← MonadFiles.write path migration.script)
        log .info ("Created migration: " ++ path)
    if apply then
      emit (migration.statements.map fun s =>
        .log .debug ("Migration statement statement=" ++ s))
      let (count, _) ← Failure.lift .schema (migration.apply client dryRun)
      log .info ("Applied " ++ Text.ofNat count ++ " statement(s).")

def tableLine (t : Table) : Text :=
  t.name ++ " (" ++ t.kind.keyword ++ "): " ++ Text.ofNat t.fields.length ++ " field(s), " ++
    Text.ofNat t.indexes.length ++ " index(es), " ++ Text.ofNat t.events.length ++ " event(s)\n"

/-- Shows what a script defines, and what of it cannot be synchronized. -/
def check (file : Text) : CommandT m Unit := do
  let script ← Failure.lift .userFile (← MonadFiles.read file)
  let reading := Script.read script
  emit (reading.warnings.map Line.found)
  say (reading.schema.tables.flatMap tableLine)
  emit (reading.warnings.map Line.reported)
  if reading.warnings.isEmpty then log .info ("No problems found in " ++ file ++ ".")
  else log .info (Text.ofNat reading.warnings.length ++ " warning(s) in " ++ file ++ ".")

/-- Runs a command. A migration file that is written is called `file`. -/
def run (settings : Settings) (file : Text) : Task → CommandT m Unit
  | .pull codeSchema index dryRun => pull settings codeSchema index dryRun
  | .diff codeSchema direction json => diff settings codeSchema direction json
  | .migrate codeSchema output apply dryRun =>
    migrate settings file codeSchema output apply dryRun
  | .check file => check file

end SchemaDrift.Command
