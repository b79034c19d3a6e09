import SchemaDrift.Command.Switch
import SchemaDrift.Change.Basic

namespace SchemaDrift.Command

/-!
# Arguments

Arguments are read from left to right. Options have a name after two dashes or a letter after one;
letters can be joined, and a value can follow in the same argument or in the next one. The first
argument that asks for help, or that does not fit, ends the reading.
-/

/-- Why arguments do not lead to a run of a command. -/
inductive Halt where
  | usage
  | help
  | version
  deriving DecidableEq, Repr

/-- What was given among the arguments. A flag has the empty value. -/
structure Given where
  options : List (Switch × Text) := []
  operands : List Text := []
  deriving DecidableEq, Repr

namespace Given

def value? (g : Given) (s : Switch) : Option Text := (g.options.find? (·.1 == s)).map (·.2)

def has (g : Given) (s : Switch) : Bool := (g.value? s).isSome

/-- Adds an option, which can be given once. A path cannot be empty. -/
def addOption (g : Given) (s : Switch) (value : Text) : Except Halt Given :=
  if s = .help then .error .help
  else if s = .version then .error .version
  else if g.has s || (s.takesValue && value.isEmpty) then .error .usage
  else .ok { g with options := g.options ++ [(s, value)] }

def addOperand (form : Form) (g : Given) (value : Text) : Except Halt Given :=
  if g.operands.length < form.operands && !value.isEmpty then
    .ok { g with operands := g.operands ++ [value] }
  else .error .usage

end Given

namespace Form

/-- What was given once an argument is read, with the option that still waits for its value. -/
abbrev Step := Given × Option Switch

/-- Reads an option by name, with its value if there is one. -/
def readName (form : Form) (g : Given) (name : Text) (value : Option Text) : Except Halt Step :=
  match form.switches.find? (·.name == name), value with
  | none, _ => .error .usage
  | some s, none => if s.takesValue then .ok (g, some s) else do return (← g.addOption s [], none)
  | some s, some value =>
    if s.takesValue then do return (← g.addOption s value, none) else .error .usage

/-- Reads options by letters. What follows the letter of an option with a value is the value. -/
def readLetters (form : Form) (g : Given) : Text → Except Halt Step
  | [] => .ok (g, none)
  | c :: rest =>
    match form.switches.find? (·.letter? == some c) with
    | none => .error .usage
    | some s =>
      if s.takesValue then
        match rest with
        | [] => .ok (g, some s)
        | '=' :: value => do return (← g.addOption s value, none)
        | value => do return (← g.addOption s value, none)
      else do readLetters form (← g.addOption s []) rest

def readOne (form : Form) (g : Given) : Text → Except Halt Step
  | '-' :: '-' :: word =>
    match Text.cutAt ['='] word with
    | some (name, value) => form.readName g name (some value)
    | none => form.readName g word none
  | '-' :: c :: letters => form.readLetters g (c :: letters)
  | word => do return (← g.addOperand form word, none)

/-- Whether an argument can be the value of the option before it. -/
def isValue (t : Text) : Bool := t.head? != some '-' || t == ['-']

/-- Reads arguments up to a word that ends them: what was given, and the words from there on.
After two dashes there are no options. -/
def read (form : Form) (g : Given) : List Text → Except Halt (Given × List Text)
  | [] => .ok (g, [])
  | word :: rest =>
    if form.ends word then .ok (g, word :: rest)
    else if word = ['-', '-'] then do return (← rest.foldlM (Given.addOperand form) g, [])
    else
      match form.readOne g word with
      | .error halt => .error halt
      | .ok (g, none) => form.read g rest
      | .ok (g, some s) =>
        match rest with
        | [] => .error .usage
        | value :: rest =>
          if isValue value then
            match g.addOption s value with
            | .error halt => .error halt
            | .ok g => form.read g rest
          else .error .usage

end Form

/-- What all commands go by. -/
structure Settings where
  snapshot : Text := "snapshot.json"
  schemaDirectory : Text := "schema"
  verbose : Bool := false
  deriving DecidableEq, Repr

inductive Task where
  | pull (codeSchema : Option Text) (index dryRun : Bool)
  | diff (codeSchema : Text) (direction : Change.Direction) (json : Bool)
  | migrate (codeSchema : Text) (output : Option Text) (apply dryRun : Bool)
  | check (file : Text)
  deriving DecidableEq, Repr

namespace Given

def require : Option Text → Except Halt Text
  | some t => .ok t
  | none => .error .usage

def task (g : Given) : Verb → Except Halt Task
  | .pull => .ok (.pull (g.value? .codeSchema) (g.has .index) (g.has .dryRun))
  | .diff => do
    return .diff (← require (g.value? .codeSchema))
      (if g.has .pull then .pull else .push) (g.has .json)
  | .migrate => do
    return .migrate (← require (g.value? .codeSchema)) (g.value? .output) (g.has .apply)
      (g.has .dryRun)
  | .check => do return .check (← require g.operands.head?)

/-- The value of a setting: as given, or else as in the environment. -/
def setting (g : Given) (environment : Text → Option Text) (s : Switch) (standard : Text) :
    Except Halt Text :=
  match g.value? s, s.standIn?.bind environment with
  | some value, _ => .ok value
  | none, some value => if value.isEmpty then .error .usage else .ok value
  | none, none => .ok standard

def settings (g : Given) (environment : Text → Option Text) : Except Halt Settings := do
  let standard : Settings := {}
  return {
    snapshot := ← g.setting environment .snapshot standard.snapshot
    schemaDirectory := ← g.setting environment .schemaDirectory standard.schemaDirectory
    verbose := g.has .verbose }

end Given

/-- The answer to a request for help on some words: at most one command is helped with. -/
def helpOn : List Text → Halt
  | [] => .help
  | [word] => if Form.program.ends word then .help else .usage
  | _ => .usage

def parse (environment : Text → Option Text) (arguments : List Text) :
    Except Halt (Settings × Task) := do
  match ← Form.program.read {} arguments with
  | (_, []) => throw .usage
  | (given, word :: rest) =>
    match Verb.ofName? word with
    | none => throw (helpOn rest)
    | some verb =>
      let (ofVerb, _) ← (Form.ofVerb verb).read {} rest
      let task ← ofVerb.task verb
      return (← given.settings environment, task)

example :
    (parse (fun _ => none) ["-vs", "s.json", "check", "--", "-x"]).toOption =
      some ({ snapshot := "s.json", verbose := true }, .check "-x") := by decide

example : (parse (fun _ => some ("gen" : Text)) ["-d=out", "pull", "--index"]).toOption =
    some ({ snapshot := "gen", schemaDirectory := "out" }, .pull none true false) := by decide

end SchemaDrift.Command
