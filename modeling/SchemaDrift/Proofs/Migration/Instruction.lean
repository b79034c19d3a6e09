import SchemaDrift.Proofs.Reading.RoundTrip
import SchemaDrift.Proofs.Schema.Edit

namespace SchemaDrift

/-!
# Instructions

A database takes each statement of a migration for an instruction that acts on one table. A
definition puts the header of a table or a member in place, and a removal takes away what it names.
-/

/-- What a statement does to a schema. -/
inductive Instruction where
  | defineTable (header : Table)
  | defineField (table : Text) (f : Field)
  | defineIndex (table : Text) (i : Index)
  | removeTable (table : Text)
  | removeField (table path : Text)
  | removeIndex (table name : Text)
  deriving DecidableEq, Repr

namespace Table

/-- The table with a new header and its old members. -/
def redefine (header : Table) : Option Table → Table
  | none => header
  | some old =>
    { header with fields := old.fields, indexes := old.indexes, events := old.events }

/-- Fields are known by their paths. -/
def editField? (t : Table) (e : Edit Text Field) : Option Table :=
  (e.step? Field.path t.fields).map ({ t with fields := · })

def editIndex? (t : Table) (e : Edit Text Index) : Option Table :=
  (e.step? Index.name t.indexes).map ({ t with indexes := · })

end Table

namespace Instruction

/-- A change of a table that has to be there. -/
def inTable (table : Text) (change : Table → Option Table) : Edit Text Table :=
  ⟨table, fun old => (old.bind change).map some⟩

/-- What an instruction does to the table that it is about. -/
def edit : Instruction → Edit Text Table
  | defineTable header => ⟨header.name, fun old => some (some (header.redefine old))⟩
  | defineField table f => inTable table (·.editField? (.put f.path f))
  | defineIndex table i => inTable table (·.editIndex? (.put i.name i))
  | removeTable table => .remove table
  | removeField table path => inTable table (·.editField? (.remove (Path.normal path)))
  | removeIndex table name => inTable table (·.editIndex? (.remove name))

def step? (c : Instruction) (s : Schema) : Option Schema :=
  (c.edit.step? Table.name s.tables).map Schema.mk

/-- The instruction of a definition. -/
def ofDefinition? : Definition → Option Instruction
  | .table t => some (defineTable t)
  | .member table (.field f) => some (defineField table f)
  | .member table (.index i) => some (defineIndex table i)
  | _ => none

/-- The name of a table with nothing behind it. -/
def wholeName? (t : Text) : Option Text := ((Head.name? t).filter (·.2.isEmpty)).map (·.1)

/-- The name of a member and its table with nothing behind them. -/
def wholeMember? (read : Text → Option (Text × Text)) (t : Text) : Option Head.Owned :=
  (Head.owned read t).filter (·.body.isEmpty)

/-- Reads a removal, which names a table or a member of a table and nothing else. -/
def readRemoval? (statement : Text) : Option Instruction := do
  let t ← Head.word? "remove" statement
  (((Head.word? "table" t).bind wholeName?).map removeTable).or <|
    (((Head.word? "field" t).bind (wholeMember? Head.path?)).map fun o =>
      removeField o.table o.name).or <|
      ((Head.word? "index" t).bind (wholeMember? Head.name?)).map fun o =>
        removeIndex o.table o.name

/-- Reads a statement of a migration. -/
def read? (statement : Text) : Option Instruction :=
  match Definition.read statement with
  | .ok .nothing => readRemoval? statement
  | .ok d => ofDefinition? d
  | .error _ => none

/-- Executes texts of statements, one after the other. A statement that is not read, or that the
schema refuses, stops the run. -/
def execute? (texts : List Text) (s : Schema) : Option Schema :=
  (texts.flatMap Script.statements).foldlM (fun s statement => (read? statement).bind (·.step? s)) s

/-! ## Runs of instructions -/

theorem foldlM_step? (cs : List Instruction) (s : Schema) :
    cs.foldlM (fun s c => c.step? s) s =
      (Edit.run? Table.name (cs.map edit) s.tables).map Schema.mk := by
  induction cs generalizing s with
  | nil => rfl
  | cons c cs ih =>
    rw [List.map_cons, Edit.run?, List.foldlM_cons, List.foldlM_cons, step?]
    cases c.edit.step? Table.name s.tables with
    | none => rfl
    | some ts => exact ih ⟨ts⟩

/-- Texts in which instructions are read are executed as these instructions. -/
theorem execute?_eq_foldlM {texts : List Text} {cs : List Instruction}
    (h : (texts.flatMap Script.statements).mapM read? = some cs) (s : Schema) :
    execute? texts s = cs.foldlM (fun s c => c.step? s) s := by
  rw [execute?]
  revert cs s
  induction texts.flatMap Script.statements with
  | nil =>
    rintro cs ⟨⟩ s
    rfl
  | cons t ts ih =>
    intro cs h s
    rw [List.mapM_cons] at h
    obtain ⟨c, hc, h⟩ := Option.bind_eq_some_iff.mp h
    obtain ⟨cs', hcs, h⟩ := Option.bind_eq_some_iff.mp h
    cases h
    rw [List.foldlM_cons, List.foldlM_cons, hc, Option.bind_some]
    cases c.step? s with
    | none => rfl
    | some s' => exact ih hcs s'

/-! ## Texts of instructions -/

open Statement (phrase phrase_cons phrase_nil ReadAs Means)

/-- Whether the text is one statement that gives this instruction. -/
def Gives (text : Text) (c : Instruction) : Prop := ReadAs read? text c

theorem gives_of_means {text : Text} {d : Definition} {c : Instruction} (h : Means text d)
    (hc : ofDefinition? d = some c) : Gives text c := by
  obtain ⟨s, htext, hsettled, hread⟩ := h
  refine ⟨s, htext, hsettled, ?_⟩
  change Definition.read s = .ok d at hread
  rw [read?, hread]
  cases d with
  | nothing => cases hc
  | table t => exact hc
  | member owner m => exact hc
  | unsupported keyword name => cases hc

theorem mapM_read?_of_gives {text : Text} {c : Instruction} (h : Gives text c) :
    (Script.statements text).mapM read? = some [c] := by
  have join : Text.join "\n" [text] = text := Text.join_singleton _ _
  rw [← join]
  exact Statement.mapM_statements_join (.cons h .nil)

theorem gives_writeField {f : Field} (h : f.Writable) {table : Text} (ht : IsName table)
    (mode : Statement.Mode) : Gives (Statement.writeField table f mode) (defineField table f) :=
  gives_of_means (Statement.means_writeField h ht mode) rfl

theorem gives_writeIndex {i : Index} (h : i.Writable) (hown : i.isDetectionOnly = false)
    {table : Text} (ht : IsName table) (mode : Statement.Mode) :
    ∃ text, Statement.writeIndex? table i mode = some text ∧ Gives text (defineIndex table i) := by
  obtain ⟨text, htext, hmeans⟩ := Statement.means_writeIndex h hown ht mode
  exact ⟨text, htext, gives_of_means hmeans rfl⟩

theorem gives_writeTable {t : Table} (h : t.HeaderWritable) (mode : Statement.Mode) :
    Gives (Statement.writeTable t mode) (defineTable t.header) :=
  gives_of_means (Statement.means_writeTable h mode) rfl

/-- The instructions in the script of a table. -/
def scriptOf (t : Table) : List Instruction :=
  defineTable t.header ::
    (t.properFields.map (defineField t.name) ++ t.properIndexes.map (defineIndex t.name))

theorem mapM_read?_script {t : Table} (h : t.Writable) :
    (Script.statements (Statement.script t)).mapM read? = some (scriptOf t) := by
  have gives : List.Forall₂ Gives (Statement.definitions t) (scriptOf t) := by
    have instructions : (Statement.meanings t).map ofDefinition? = (scriptOf t).map some := by
      simp [Statement.meanings, Table.members, scriptOf, Function.comp_def, ofDefinition?]
    have given : List.Forall₂ (fun text c? => ∀ c, c? = some c → Gives text c)
        (Statement.definitions t) ((Statement.meanings t).map ofDefinition?) := by
      rw [List.forall₂_map_right_iff]
      exact (Statement.forall₂_definitions h).imp fun text d hd c hc => gives_of_means hd hc
    rw [instructions, List.forall₂_map_right_iff] at given
    exact given.imp fun text c hc => hc c rfl
  exact Statement.mapM_statements_join gives

theorem read_removal (t : Text) : Definition.read ("REMOVE" ++ t) = .ok .nothing := by
  have start : Text.trimStart ("REMOVE" ++ t) = "REMOVE" ++ t := rfl
  have word : Head.word? "define" ("REMOVE" ++ t) = none := rfl
  have noun : Head.noun? ("REMOVE" ++ t) = none := by
    rw [Head.noun?, start, word]
    rfl
  rw [Definition.read, noun]

theorem gives_removal {text : Text} {ps : List Text} {c : Instruction}
    (htext : text = ("REMOVE" ++ phrase ps) ++ [';']) (hps : ∀ p ∈ ps, Script.Settled p)
    (hread : readRemoval? ("REMOVE" ++ phrase ps) = some c) : Gives text c := by
  refine ⟨_, htext, Statement.settled_phrase (by decide) hps, ?_⟩
  rw [read?, read_removal]
  exact hread

theorem word?_remove {p : Text} (hp : Text.IsTrimmed p) (ps : List Text) :
    Head.word? "remove" ("REMOVE" ++ phrase (p :: ps)) = some (p ++ phrase ps) :=
  Head.word?_phrase (by decide) hp ps

theorem remove_table (t : Text) :
    ("REMOVE TABLE " : Text) ++ t = "REMOVE" ++ ' ' :: ("TABLE" ++ ' ' :: t) := rfl

theorem removal_member (noun n table : Text) :
    ("REMOVE" ++ phrase (noun :: n :: Head.onTable table)) ++ [';'] =
      "REMOVE " ++ (noun ++ (" " ++ (n ++ (" ON TABLE " ++ (table ++ [';']))))) := by
  have onTable : phrase (Head.onTable table) = (" ON TABLE " : Text) ++ (table ++ []) := rfl
  rw [phrase_cons, phrase_cons, onTable, List.append_nil]
  change "REMOVE " ++ ((noun ++ (" " ++ (n ++ (" ON TABLE " ++ table)))) ++ [';']) = _
  simp only [List.append_assoc]

theorem removeTable_eq (table : Text) :
    Statement.removeTable table = ("REMOVE" ++ phrase ["TABLE", table]) ++ [';'] := by
  unfold Statement.removeTable
  rw [List.append_assoc, remove_table]
  simp only [phrase_cons, phrase_nil, List.append_nil, List.append_assoc, List.cons_append]
  rfl

theorem remove_field (t : Text) : ("REMOVE " : Text) ++ ("FIELD" ++ (" " ++ t)) =
    "REMOVE FIELD " ++ t := rfl

theorem remove_index (t : Text) : ("REMOVE " : Text) ++ ("INDEX" ++ (" " ++ t)) =
    "REMOVE INDEX " ++ t := rfl

theorem removeField_eq (table path : Text) : Statement.removeField table path =
    ("REMOVE" ++ phrase ("FIELD" :: path :: Head.onTable table)) ++ [';'] := by
  unfold Statement.removeField
  rw [removal_member, remove_field]
  simp only [List.append_assoc]
  rfl

theorem removeIndex_eq (table name : Text) : Statement.removeIndex table name =
    ("REMOVE" ++ phrase ("INDEX" :: name :: Head.onTable table)) ++ [';'] := by
  unfold Statement.removeIndex
  rw [removal_member, remove_index]
  simp only [List.append_assoc]
  rfl

theorem gives_removeTable {table : Text} (h : IsName table) :
    Gives (Statement.removeTable table) (removeTable table) := by
  have hword : Head.word? "table" ("TABLE" ++ phrase [table]) = some (table ++ phrase []) :=
    Head.word?_phrase (by decide) h.isTrimmed []
  refine gives_removal (removeTable_eq table) ?_ ?_
  · simp only [List.forall_mem_cons]
    exact ⟨by decide, ⟨h.isTrimmed, h.closed⟩, by simp⟩
  · rw [readRemoval?, word?_remove (p := "TABLE") (by decide), Option.bind_eq_bind,
      Option.bind_some, hword, Option.bind_some, wholeName?, Head.name?_phrase h]
    rfl

theorem settled_removal {noun n table : Text} (hnoun : Script.Settled noun)
    (hn : Script.Settled n) (ht : IsName table) :
    ∀ p ∈ noun :: n :: Head.onTable table, Script.Settled p := by
  simp only [List.forall_mem_cons]
  exact ⟨hnoun, hn, Head.settled_onTable ht⟩

theorem gives_removeField {path table : Text} (hp : IsPath path) (ht : IsName table) :
    Gives (Statement.removeField table path) (removeField table path) := by
  have hword : Head.word? "field" ("FIELD" ++ phrase (path :: Head.onTable table)) =
      some (path ++ phrase (Head.onTable table)) := Head.word?_phrase (by decide) hp.isTrimmed _
  have hother : Head.word? "table" ("FIELD" ++ phrase (path :: Head.onTable table)) = none := rfl
  have howned := Head.owned_phrase Head.readsName_path? hp ht []
  rw [List.append_nil] at howned
  refine gives_removal (removeField_eq table path)
    (settled_removal (by decide) ⟨hp.isTrimmed, hp.closed⟩ ht) ?_
  rw [readRemoval?, word?_remove (p := "FIELD") (by decide), Option.bind_eq_bind,
    Option.bind_some, hother, hword, Option.bind_some, wholeMember?, howned]
  rfl

theorem gives_removeIndex {name table : Text} (hn : IsName name) (ht : IsName table) :
    Gives (Statement.removeIndex table name) (removeIndex table name) := by
  have hword : Head.word? "index" ("INDEX" ++ phrase (name :: Head.onTable table)) =
      some (name ++ phrase (Head.onTable table)) := Head.word?_phrase (by decide) hn.isTrimmed _
  have hother (k : Text) (hk : k = "table" ∨ k = "field") :
      Head.word? k ("INDEX" ++ phrase (name :: Head.onTable table)) = none := by
    rcases hk with rfl | rfl <;> rfl
  have howned := Head.owned_phrase Head.readsName_name? hn ht []
  rw [List.append_nil] at howned
  refine gives_removal (removeIndex_eq table name)
    (settled_removal (by decide) ⟨hn.isTrimmed, hn.closed⟩ ht) ?_
  rw [readRemoval?, word?_remove (p := "INDEX") (by decide), Option.bind_eq_bind,
    Option.bind_some, hother _ (.inl rfl), hother _ (.inr rfl), hword, Option.bind_some,
    wholeMember?, howned]
  rfl

end Instruction

end SchemaDrift
