import SchemaDrift.Json.Codec

namespace SchemaDrift

/-!
# Planned changes of files

A change of a file in the schema directory carries the text to write. A merge that found nothing to
edit has no text and only reports.
-/

inductive FileAction where
  | create
  | update
  | merge
  | delete
  deriving DecidableEq, Repr

namespace FileAction

def all : List FileAction := [.create, .update, .merge, .delete]

def tag : FileAction → Text
  | create => "create"
  | update => "update"
  | merge => "merge"
  | delete => "delete"

end FileAction

structure FileChange where
  file : Text
  /-- The table of the file; the index of the modules has none. -/
  table : Option Text := none
  action : FileAction
  content : Option Text := none
  notes : List Text := []
  deriving DecidableEq, Repr

namespace FileChange

def codec : Codec FileChange :=
  .record
    (.cons (.required "file" .text) <| .cons (.optional "table" .text) <|
      .cons (.required "action" (.tag FileAction.all FileAction.tag)) <|
      .cons (.optional "content" .text) <| .cons (.listed "notes" .text) .nil)
    (fun (f, t, a, c, n, ()) => ⟨f, t, a, c, n⟩)
    (fun c => (c.file, c.table, c.action, c.content, c.notes, ()))

end FileChange

end SchemaDrift
