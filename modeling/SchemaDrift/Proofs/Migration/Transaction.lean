import SchemaDrift.Migration.Basic
import SchemaDrift.Proofs.Migration.Rendered
import SchemaDrift.Proofs.Reading.Introspection

namespace SchemaDrift

/-!
# Migrations as transactions

The script of a migration is split into the statements that were written for its changes, with the
two that delimit the transaction around them. A database is given this script as often as the
migration is applied with success.
-/

/-- Whether the names of the table can be written and its texts are settled, so that none of them
ends a statement. -/
structure Table.Settled (t : Table) : Prop where
  named : t.Named
  texts : ∀ e ∈ t.texts, Script.Settled e
  fields : ∀ f ∈ t.fields, ∀ e ∈ f.texts, Script.Settled e
  columns : ∀ i ∈ t.indexes, i.columns ≠ [] ∧ ∀ c ∈ i.columns, Script.Settled c

namespace Statement

/-! ## Single statements -/

/-- Whether the text is one statement with its semicolon that starts with this word. -/
def StartsWith (word text : Text) : Prop :=
  ∃ s, text = s ++ [';'] ∧ Script.Settled s ∧ (word ++ [' ']) <+: s

/-- Whether the text is one statement that defines something of this noun. -/
def Defines (noun : Noun) (text : Text) : Prop :=
  StartsWith "DEFINE" text ∧ ∃ rest, Head.noun? text.dropLast = some (noun.keyword, rest)

variable {t : Table}

/-- The nouns of the definitions of a table: one for the table, one for each field that is no
element constraint, and one for each index that the database does not manage on its own. -/
def nouns (t : Table) : List Noun :=
  .table :: ((t.properFields.map fun _ => .field) ++ t.properIndexes.map fun _ => .index)

end Statement

namespace Change

/-! ## Changes -/

/-- The single statements of a change, of which an added table has several. -/
def texts (c : Change) (source target : Schema) : List Text :=
  if c.kind = .tableAdded then ((source.table? c.table).map Statement.definitions).getD []
  else (c.statement? source target).toList

variable {source target : Schema}

end Change

namespace Migration

/-! ## Records -/

/-- A call that applies a migration: the database that is asked, and whether it is a dry run. -/
abbrev Attempt := Client × Bool

/-- The scripts that a database was given, after one more call. -/
def record (m : Migration) (scripts : List Text) (call : Attempt) : List Text :=
  match m.apply call.1 call.2 with
  | .ok (_, given) => scripts ++ given
  | .error _ => scripts

end Migration

end SchemaDrift
