import SchemaDrift.Code.Line
import SchemaDrift.Code.Search
import SchemaDrift.Merge.Outcome
import SchemaDrift.Source.Table

namespace SchemaDrift.Merge

/-!
# Edits of a table's file

A field is inserted at the end of the list of fields, and an index above the function that lists the
definitions, in which it is listed as well. A removed declaration is commented out where it stands.
-/

/-- Puts a comma after the last element of a list, unless a comma follows it. -/
def closeLast (entries : List Code.Entry) (t : Text) : Text :=
  match entries.getLast? with
  | some ⟨_, stop, none⟩ => Text.insertAt t stop ","
  | _ => t

/-- Whether the last element of a list lacks the comma after it. -/
def lastIsOpen (entries : List Code.Entry) : Bool :=
  match entries.getLast? with
  | some entry => entry.comma.isNone
  | none => false

def removeField (t name marker : Text) : Except Obstacle Text :=
  match Code.fieldsList? t with
  | none => .error .noFieldsList
  | some (opening, closing) =>
    let isWanted (entry : Code.Entry) : Bool :=
      ((Code.entryName? (Text.slice t entry.start entry.stop)).map Path.normal) ==
        some (Path.normal name)
    match (Code.entries t opening closing).find? isWanted with
    | none => .error .notListed
    | some entry =>
      match Code.declarationEnd? t entry.start with
      | none => .error .noEnd
      | some stop =>
        match Code.commentOut? t entry.start (stop.after t) marker with
        | none => .error .sharedLine
        | some t => .ok t

/-- The indentation of a new entry: that of the first entry, or one step more than the line of a
bracket. -/
def entryIndent (t : Text) (opening closing : Nat) (entries : List Code.Entry) : Text :=
  match entries.head?.filter fun entry => Code.startsLine t entry.start with
  | some entry => Code.indentation t entry.start
  | none =>
    Code.indentation t (if Code.startsLine t closing then closing else opening) ++ "    "

/-- Inserts the entry of a field behind the other entries. -/
def insertField (t : Text) (table : Table) (f : Field) (marker : Text) : Except Obstacle Text :=
  match Code.fieldsList? t with
  | none => .error .noFieldsList
  | some (opening, closing) =>
    let entries := Code.entries t opening closing
    let indent := entryIndent t opening closing entries
    let entry := Source.entry indent f.name (Declaration.ofField table f)
    let comma : Text := if lastIsOpen entries then [] else ","
    let block := Code.markerLine indent marker ++ entry ++ comma ++ "\n"
    let inserted :=
      if Code.startsLine t closing then Text.insertAt t (Code.lineStart t closing) block
      else Text.insertAt t closing ("\n" ++ block ++ Code.indentation t closing)
    .ok (closeLast entries inserted)

/-- Lists a function among the definitions. -/
def listDefinition? (t function : Text) : Option Text := do
  let (opening, closing) ← Code.listIn? t Source.aggregate
  let entries := Code.entries t opening closing
  let item := Source.definition function
  match entries.getLast? with
  | none => return Text.insertAt t closing item
  | some last =>
    if Code.startsLine t closing then
      let comma : Text := if lastIsOpen entries then [] else ","
      let line := Code.indentation t last.start ++ item ++ comma ++ "\n"
      return closeLast entries (Text.insertAt t (Code.lineStart t closing) line)
    else
      match last.comma with
      | some comma => return Text.insertAt t (comma + 1) (" " ++ item ++ ",")
      | none => return Text.insertAt t last.stop (", " ++ item)

/-- Inserts the function of an index. The result says as well whether the function could be
listed. -/
def insertIndex (t : Text) (i : Index) (marker : Text) : Except Obstacle (Text × Bool) :=
  let function := Source.functionOf i.name
  if (Code.function? t function).isSome then .error .nameTaken
  else
    match Source.indexFunction? i with
    | none => .error .notWritten
    | some source =>
      match Code.function? t Source.aggregate with
      | none => .ok (Code.endLine t ++ "\n" ++ Code.markerLine [] marker ++ source, false)
      | some aggregate =>
        let block := Code.markerLine [] marker ++ source ++ "\n"
        let inserted := Text.insertAt t (Code.itemStart t aggregate) block
        match listDefinition? inserted function with
        | some listed => .ok (listed, true)
        | none => .ok (inserted, false)

/-- Removes an element of a list with one of the commas next to it. -/
def dropEntry (t : Text) (previous : Option Code.Entry) (entry : Code.Entry) : Text :=
  match entry.comma, previous with
  | some comma, _ =>
    let spaces := (t.drop (comma + 1)).takeWhile (· == ' ')
    Text.replaceSpan t entry.start (comma + 1 + spaces.length) []
  | none, some previous =>
    Text.replaceSpan t (previous.comma.getD previous.stop) entry.stop []
  | none, none => Text.replaceSpan t entry.start entry.stop []

/-- The first element that `p` holds of, with the element before it. -/
def findWithPrevious {α : Type} (p : α → Bool) (previous : Option α) :
    List α → Option (Option α × α)
  | [] => none
  | a :: rest => if p a then some (previous, a) else findWithPrevious p (some a) rest

/-- Takes a function off the list of definitions. An element on lines of its own is commented
out. -/
def unlistDefinition (t function marker : Text) : Text :=
  match Code.listIn? t Source.aggregate with
  | none => t
  | some (opening, closing) =>
    let isCall (entry : Code.Entry) : Bool :=
      (Text.stripStart (function ++ "()") (Text.slice t entry.start entry.stop)).isSome
    match findWithPrevious isCall none (Code.entries t opening closing) with
    | none => t
    | some (previous, entry) =>
      let stop := (entry.comma.map (· + 1)).getD entry.stop
      (Code.commentOut? t entry.start stop marker).getD (dropEntry t previous entry)

def removeIndex (t name marker : Text) : Except Obstacle Text :=
  let function := Source.functionOf name
  match Code.function? t function with
  | none => .error .notDeclared
  | some declaration =>
    match Code.declarationEnd? t declaration with
    | some (.body stop) =>
      let first := Code.itemStart t declaration
      let start := first + ((t.drop first).takeWhile Text.isBlank).length
      match Code.commentOut? t start (stop + 1) marker with
      | none => .error .sharedLine
      | some t => .ok (unlistDefinition t function marker)
    | _ => .error .noEnd

end SchemaDrift.Merge
