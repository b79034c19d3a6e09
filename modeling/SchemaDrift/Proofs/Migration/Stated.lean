import SchemaDrift.Proofs.Change.Mirror
import SchemaDrift.Proofs.Migration.Managed

namespace SchemaDrift

/-!
# What the statements of changes define

The comparison finds the last field at a path and the last table of a name, the renderer the first.
Where names and paths are different they agree: the statement of a change is written from the very
object that gave rise to it.
-/

namespace Change

/-- How a statement for a change of this kind treats what is there already. -/
def Kind.mode : Kind → Statement.Mode
  | .tableAdded | .fieldAdded | .indexAdded => .create
  | _ => .overwrite

variable {source target : Schema} {s t : Table} {c : Change} {direction : Direction}

/-! ## What the renderer finds -/

theorem field?_eq {schema : Schema} {f : Field} (htable : schema.table? c.table = some s)
    (hf : s.fieldAt? f.name = some f) (hfield : c.field = some f.name) :
    c.field? schema = some (s, f) := by
  rw [field?, htable, hfield]
  change (s.fieldAt? f.name).bind (fun f => some (s, f)) = some (s, f)
  rw [hf, Option.bind_some]

theorem index?_eq {schema : Schema} {i : Index} (htable : schema.table? c.table = some s)
    (hi : s.index? i.name = some i) (hindex : c.index = some i.name) :
    c.index? schema = some (s, i) := by
  rw [index?, htable, hindex]
  change (s.index? i.name).bind (fun i => some (s, i)) = some (s, i)
  rw [hi, Option.bind_some]

theorem statement?_of_definesField {f : Field} (hkind : c.kind.definesField = true)
    (hfound : c.field? source = some (s, f)) :
    c.statement? source target = some (Statement.writeField s.name f c.kind.mode) := by
  unfold statement?
  cases hc : c.kind with
  | fieldAdded | fieldTypeChanged | fieldDefaultChanged | fieldAssertionChanged =>
    simp only [hfound]
    rfl
  | _ =>
    rw [hc] at hkind
    cases hkind

end Change

end SchemaDrift
