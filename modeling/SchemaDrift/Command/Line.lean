import SchemaDrift.Reading.Warning

namespace SchemaDrift.Command

/-!
# Lines of output

A command says its results, and logs what it comes across. Both go to the same place in order.
-/

inductive Level where
  | debug
  | info
  | warning
  deriving DecidableEq, Repr

/-- The level in five columns. -/
def Level.tag : Level → Text
  | debug => "DEBUG"
  | info => " INFO"
  | warning => " WARN"

/-- A text of the output: a result, or an entry of the log. -/
inductive Line where
  | result (text : Text)
  | log (level : Level) (message : Text)
  deriving DecidableEq, Repr

namespace Line

/-- The text as it is printed. Only a verbose command shows its details. -/
def shown (verbose : Bool) : Line → Text
  | result text => text
  | log .debug message => if verbose then Level.debug.tag ++ ' ' :: message ++ ['\n'] else []
  | log level message => level.tag ++ ' ' :: message ++ ['\n']

def output (verbose : Bool) (lines : List Line) : Text := lines.flatMap (·.shown verbose)

/-- The name of a kind of warnings in the log. -/
def kindName : Warning.Kind → Text
  | .parseFailure => "ParseFailure"
  | .unsupportedFeature => "UnsupportedFeature"
  | .structuralMismatch => "StructuralMismatch"
  | .introspectionFailure => "IntrospectionFailure"

/-- A warning when it comes up. -/
def found (w : Warning) : Line :=
  log .warning (w.reason ++ " kind=" ++ kindName w.kind ++ " subject=" ++ w.subject)

def reported (w : Warning) : Line := log .warning (w.display ++ " kind=" ++ kindName w.kind)

end Line

end SchemaDrift.Command
