import SchemaDrift.Code.Piece
import SchemaDrift.Text.Blank

namespace SchemaDrift.Code

/-!
# Bracket structure

Brackets, separators and the bodies of functions are found among the items of code, which know where
they stand in the text. Places are counted in characters.
-/

/-- A piece that counts as code, with its place and the place after it. -/
structure Item where
  start : Nat
  stop : Nat
  mark : Char
  deriving DecidableEq, Repr

/-- The items of some pieces, the first of which stands at `place`. -/
def itemsOf (place : Nat) : List Piece → List Item
  | [] => []
  | p :: rest =>
    let after := place + p.text.length
    match p.mark? with
    | some mark => ⟨place, after, mark⟩ :: itemsOf after rest
    | none => itemsOf after rest

def items (t : Text) : List Item := itemsOf 0 (pieces 0 none t)

def itemsFrom (t : Text) (place : Nat) : List Item := (items t).filter (place ≤ ·.start)

/-- Whether an item starts at the place: it stands neither in a literal nor in a comment. -/
def isCode (t : Text) (place : Nat) : Bool := (items t).any (·.start == place)

def opens (c : Char) : Bool := c == '(' || c == '[' || c == '\x7b'

def closes (c : Char) : Bool := c == ')' || c == ']' || c == '\x7d'

/-- The place of the bracket that brings the depth back to zero. -/
def closeFrom (depth : Int) : List Item → Option Nat
  | [] => none
  | i :: rest =>
    if opens i.mark then closeFrom (depth + 1) rest
    else if closes i.mark then
      if depth = 1 then some i.start else closeFrom (depth - 1) rest
    else closeFrom depth rest

/-- The place of the bracket that matches the one at `place`. -/
def matchingClose? (t : Text) (place : Nat) : Option Nat := closeFrom 0 (itemsFrom t place)

/-- Where a declaration ends. -/
inductive End where
  /-- A separator, which belongs to the declaration. -/
  | separator (place : Nat)
  /-- The bracket that closes the block around it. -/
  | blockClose (place : Nat)
  /-- The bracket that closes its own body. -/
  | body (place : Nat)
  deriving DecidableEq, Repr

/-- The end of a declaration that is read up to some depth. -/
def endFrom (depth : Int) : List Item → Option End
  | [] => none
  | i :: rest =>
    if (i.mark = ',' ∨ i.mark = ';') ∧ depth = 0 then some (.separator i.start)
    else if opens i.mark then endFrom (depth + 1) rest
    else if closes i.mark then
      if depth - 1 < 0 then some (.blockClose i.start)
      else if depth - 1 = 0 ∧ i.mark = '\x7d' then some (.body i.start)
      else endFrom (depth - 1) rest
    else endFrom depth rest

/-- The end of the declaration that starts at a place. -/
def declarationEnd? (t : Text) (place : Nat) : Option End := endFrom 0 (itemsFrom t place)

/-- The place after a declaration. The blanks before a closing bracket do not belong to it. -/
def End.after (t : Text) : End → Nat
  | separator place => place + 1
  | body place => place + 1
  | blockClose place => (Text.trimEnd (t.take place)).length

/-- An element of a list between brackets. -/
structure Entry where
  start : Nat
  /-- The place after the last item of the element. -/
  stop : Nat
  /-- The place of the comma that follows, if one does. -/
  comma : Option Nat
  deriving DecidableEq, Repr

/-- The elements of a list, read up to some depth; `current` is the part of an element that was read
already. -/
def entriesOf (depth : Int) (current : Option (Nat × Nat)) : List Item → List Entry
  | [] => (current.map fun (start, stop) => ⟨start, stop, none⟩).toList
  | i :: rest =>
    if i.mark = ',' ∧ depth = 0 then
      (current.map fun (start, stop) => ⟨start, stop, some i.start⟩).toList ++
        entriesOf depth none rest
    else
      let depth := if opens i.mark then depth + 1 else if closes i.mark then depth - 1 else depth
      if Text.isBlank i.mark then entriesOf depth current rest
      else entriesOf depth (some ((current.map (·.1)).getD i.start, i.stop)) rest

def entries (t : Text) (opening closing : Nat) : List Entry :=
  entriesOf 0 none ((itemsFrom t (opening + 1)).takeWhile (·.start < closing))

end SchemaDrift.Code
