import SchemaDrift.Command.Help
import SchemaDrift.Command.Run
import SchemaDrift.Files.Stamp
import Std.Time.DateTime.Timestamp

namespace SchemaDrift

/-!
# The program

The command line around the commands: it hands them the files of the machine, the arguments, the
environment and the time, and prints what they say.
-/

/-- A failed operation of the machine. A code can come with either sign. -/
def IoError.ofError : IO.Error → IoError
  | .noFileOrDirectory .. => .notFound
  | .alreadyExists .. => .fileExists
  | .inappropriateType _ code details =>
    if code = 20 ∨ code = 0 - 20 then .notDirectory
    else if code = 21 ∨ code = 0 - 21 then .isDirectory
    else .other details.toList
  | .invalidArgument _ code details =>
    if code = 36 ∨ code = 0 - 36 then .nameTooLong else .other details.toList
  | e => .other e.toString.toList

namespace Machine

/-- The result of an operation, with the failure that the machine reports. -/
def attempt {α : Type} (action : IO α) : IO (Except IoError α) := do
  match ← action.toBaseIO with
  | .ok a => return .ok a
  | .error e => return .error (.ofError e)

/-- A path from the current directory on. -/
def resolve (path : Text) := do
  if path.isEmpty then throw (IO.Error.noFileOrDirectory "" 2 "")
  return (← IO.currentDir) / String.ofList path

/-- What stands at a path. Links are followed. -/
def look (path : Text) : IO (Option FileKind) := do
  try
    match (← (← resolve path).metadata).type with
    | .file => return some .file
    | .dir => return some .directory
    | _ => return some .other
  catch _ => return none

instance : MonadFiles IO where
  look := look
  read path := attempt do return (← IO.FS.readFile (← resolve path)).toList
  list path := attempt do return (← (← resolve path).readDir).toList.map (·.fileName.toList)
  makeDirectory path := attempt do IO.FS.createDir (← resolve path)
  write path text := attempt do IO.FS.writeFile (← resolve path) (String.ofList text)
  remove path := attempt do IO.FS.removeFile (← resolve path)

/-- The values of the environment variables that stand in for options. -/
def environment : IO (Text → Option Text) := do
  let names := Command.Form.program.switches.filterMap (·.standIn?)
  let values ← names.mapM fun name => do
    return (name, (← IO.getEnv (String.ofList name)).map String.toList)
  return fun name => (values.find? (·.1 == name)).bind (·.2)

/-- The name of a migration file that is written now. -/
def migrationFile : IO Text := do
  let now ← Std.Time.Timestamp.now
  let stamp := (Stamp.ofSeconds? now.toSecondsSinceUnixEpoch.val).getD []
  return Stamp.migrationFile stamp

end Machine

/-- Runs the program: the exit code. -/
def program (arguments : List Text) : IO UInt32 := do
  let stdout ← IO.getStdout
  match Command.parse (← Machine.environment) arguments with
  | .error .version =>
    stdout.putStr (String.ofList Command.versionText)
    return 0
  | .error .help =>
    stdout.putStr (String.ofList Command.helpText)
    return 0
  | .error .usage =>
    (← IO.getStderr).putStr (String.ofList Command.helpText)
    return 2
  | .ok (settings, task) =>
    let command := Command.run (m := IO) settings (← Machine.migrationFile) task
    let (result, lines) ← (ExceptT.run command).run []
    stdout.putStr (String.ofList (Command.Line.output settings.verbose lines))
    match result with
    | .ok () => return 0
    | .error failure =>
      (← IO.getStderr).putStrLn ("Error: " ++ String.ofList failure.message)
      return 1

end SchemaDrift

def main (arguments : List String) : IO UInt32 :=
  SchemaDrift.program (arguments.map String.toList)
