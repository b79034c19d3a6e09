import SchemaDrift.Text.Basic

namespace SchemaDrift.Command

/-!
# Fixed answers

What the program says about itself.
-/

def versionText : Text := "schema-sync 0.1.0\n"

/-- The commands and options of the program, one in a line. -/
def helpText : Text := Text.join ['\n'] <| List.map String.toList [
  "Keeps declarative schema sources and a SurrealDB schema in sync",
  "",
  "Usage: schema-sync [OPTIONS] <COMMAND>",
  "",
  "Commands:",
  "  pull     Write schema sources from the database schema",
  "             -c, --code-schema <CODE_SCHEMA>  Code-side schema as JSON; enables merging",
  "                 --index                      Also write mod.rs",
  "                 --dry-run                    Show planned file changes without writing them",
  "  diff     Show the changes between code and database",
  "             -c, --code-schema <CODE_SCHEMA>  Code-side schema as JSON",
  "                 --pull                       Describe the changes from the database's side",
  "                 --json                       Print changes as JSON",
  "  migrate  Render the statements that bring the database in line with code",
  "             -c, --code-schema <CODE_SCHEMA>  Code-side schema as JSON",
  "             -o, --output <OUTPUT>            Directory to write a migration script to",
  "                 --apply                      Apply the statements to the database",
  "                 --dry-run                    Show statements without applying them",
  "  check    Parse a SurrealQL script and report what cannot be synchronized",
  "  help     Print this message",
  "",
  "Options:",
  "  -s, --snapshot <SNAPSHOT>      Database snapshot [default: snapshot.json]",
  "  -d, --schema-dir <SCHEMA_DIR>  Directory of generated schema sources [default: schema]",
  "  -v, --verbose                  Enable verbose output",
  "  -h, --help                     Print help",
  "  -V, --version                  Print version",
  ""]

end SchemaDrift.Command
