import SchemaDrift.Files.IoError

namespace SchemaDrift

/-!
# Paths

A path is written with slashes. It is followed step by step, from the root if it starts with a slash
and from the working directory if not. Nothing cancels out before the path is followed: a step up is
taken from the place that the steps before it have reached.
-/

/-- One part of a path. -/
inductive PathStep where
  | stay
  | up
  | into (name : Text)
  deriving DecidableEq, Repr

namespace PathStep

def ofPart (part : Text) : PathStep :=
  if part = ['.'] then stay else if part = ['.', '.'] then up else into part

def part : PathStep → Text
  | stay => ['.']
  | up => ['.', '.']
  | into name => name

@[simp] theorem part_ofPart (t : Text) : (ofPart t).part = t := by
  unfold ofPart
  split
  · simp [part, *]
  · split <;> simp [part, *]

end PathStep

structure FilePath where
  isAbsolute : Bool
  steps : List PathStep
  /-- A slash at the end asks for a directory. -/
  endsInSlash : Bool
  deriving DecidableEq, Repr

namespace FilePath

/-- Reads a path. Slashes in a row count as one. -/
def ofText (t : Text) : FilePath where
  isAbsolute := t.head? == some '/'
  steps := ((Text.splitOn '/' t).filter (!·.isEmpty)).map PathStep.ofPart
  endsInSlash := t.getLast? == some '/'

def toText (p : FilePath) : Text :=
  (if p.isAbsolute then ['/'] else []) ++ Text.join ['/'] (p.steps.map (·.part)) ++
    (if p.endsInSlash then ['/'] else [])

/-- The steps without those that stay, but for one at the start of a relative path. -/
def places (p : FilePath) : List PathStep :=
  match p.isAbsolute, p.steps with
  | false, .stay :: rest => .stay :: rest.filter (· != .stay)
  | _, steps => steps.filter (· != .stay)

/-- The directories that a path leads through by its wording, innermost first. -/
def above (p : FilePath) : List FilePath :=
  (List.range p.places.length).reverse.filterMap fun count =>
    if count = 0 then none
    else some { isAbsolute := p.isAbsolute, steps := p.places.take count, endsInSlash := false }

def byteLength : Text → Nat
  | [] => 0
  | c :: rest => c.utf8Size + byteLength rest

/-- Why no file can have this path, whatever files there are. -/
def fault? (path : Text) : Option IoError :=
  if path.contains '\x00' then some .nulInName
  else if path.isEmpty then some .notFound
  else if 4095 < byteLength path then some .nameTooLong
  else none

example : (ofText ['a', '/', '.', '/', '.', '.', '/', '/', 'b']).above.map toText =
    [['a', '/', '.', '.'], ['a']] := by decide

example : (ofText ['n', 'e', 'w', '/', '.']).above = [] := by decide

end FilePath

end SchemaDrift
