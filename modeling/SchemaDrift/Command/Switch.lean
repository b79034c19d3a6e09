import SchemaDrift.Text.Basic

namespace SchemaDrift.Command

/-!
# Commands and their options

The program has four commands. Some options belong to the program and stand before the name of the
command; the others belong to commands and stand after it.
-/

inductive Verb where
  | pull
  | diff
  | migrate
  | check
  deriving DecidableEq, Repr

namespace Verb

def all : List Verb := [.pull, .diff, .migrate, .check]

def name : Verb → Text
  | pull => "pull"
  | diff => "diff"
  | migrate => "migrate"
  | check => "check"

def ofName? (t : Text) : Option Verb := all.find? (·.name == t)

@[simp] theorem ofName?_name (v : Verb) : ofName? v.name = some v := by
  cases v <;> decide

end Verb

/-- An option, which some options follow with a value. -/
inductive Switch where
  | snapshot
  | schemaDirectory
  | verbose
  | version
  | help
  | codeSchema
  | index
  | dryRun
  | pull
  | json
  | output
  | apply
  deriving DecidableEq, Repr

namespace Switch

/-- The name that stands after two dashes. -/
def name : Switch → Text
  | snapshot => "snapshot"
  | schemaDirectory => "schema-dir"
  | verbose => "verbose"
  | version => "version"
  | help => "help"
  | codeSchema => "code-schema"
  | index => "index"
  | dryRun => "dry-run"
  | pull => "pull"
  | json => "json"
  | output => "output"
  | apply => "apply"

/-- The letter that stands after one dash. -/
def letter? : Switch → Option Char
  | snapshot => some 's'
  | schemaDirectory => some 'd'
  | verbose => some 'v'
  | version => some 'V'
  | help => some 'h'
  | codeSchema => some 'c'
  | output => some 'o'
  | _ => none

/-- Whether a value belongs to the option. All values are paths. -/
def takesValue : Switch → Bool
  | snapshot | schemaDirectory | codeSchema | output => true
  | _ => false

/-- The environment variable that stands in for the option. -/
def standIn? : Switch → Option Text
  | snapshot => some ("SCHEMA_SYNC_SNAPSHOT" : Text)
  | schemaDirectory => some ("SCHEMA_SYNC_DIR" : Text)
  | _ => none

end Switch

/-- What can stand among the arguments of a command, or of the program in front of one. -/
structure Form where
  switches : List Switch
  /-- How many arguments that are no options there can be. -/
  operands : Nat := 0
  /-- Whether a word ends the arguments. -/
  ends : Text → Bool := fun _ => false

def helpWord : Text := "help"

namespace Form

/-- The options of the program, up to the name of a command. -/
def program : Form where
  switches := [.snapshot, .schemaDirectory, .verbose, .version, .help]
  ends word := (Verb.ofName? word).isSome || word == helpWord

def ofVerb : Verb → Form
  | .pull => { switches := [.codeSchema, .index, .dryRun, .help] }
  | .diff => { switches := [.codeSchema, .pull, .json, .help] }
  | .migrate => { switches := [.codeSchema, .output, .apply, .dryRun, .help] }
  | .check => { switches := [.help], operands := 1 }

end Form

end SchemaDrift.Command
