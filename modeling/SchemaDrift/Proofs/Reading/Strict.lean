import SchemaDrift.Proofs.Reading.Additions
import SchemaDrift.Proofs.Statement.Spans

namespace SchemaDrift

/-!
# Strict and lenient reading

The strict reading of a script succeeds just if the lenient one has nothing to warn of that makes it
leave a statement out, and then both read the same. Otherwise the first of these warnings says where
the strict reading stops. What the lenient reading makes of a script is what the strict one makes of
the statements that count.
-/

namespace Warning

theorem ofKind_append (kind : Kind) (ws vs : List Warning) :
    ofKind kind (ws ++ vs) = ofKind kind ws ++ ofKind kind vs := List.filter_append _ _

theorem ofKind_of_forall {kind : Kind} {ws : List Warning} (h : ∀ w ∈ ws, w.kind = kind) :
    ofKind kind ws = ws :=
  List.filter_eq_self.mpr fun w hw => by rw [h w hw]; exact beq_self_eq_true kind

theorem ofKind_of_forall_ne {kind other : Kind} {ws : List Warning} (h : ∀ w ∈ ws, w.kind = other)
    (hne : other ≠ kind) : ofKind kind ws = [] :=
  List.filter_eq_nil_iff.mpr fun w hw => by rw [h w hw]; simpa using hne

theorem kind_of_mem_warnings {table : Text} {m : Member} {w : Warning}
    (h : w ∈ m.warnings table) : w.kind = .unsupportedFeature := by
  cases m with
  | field f =>
    simp only [Member.warnings] at h
    split at h
    · cases h
    · rw [List.mem_singleton.mp h]
      rfl
  | index i =>
    simp only [Member.warnings] at h
    split at h
    · rw [List.mem_singleton.mp h]
      rfl
    · split at h
      · rw [List.mem_singleton.mp h]
        rfl
      · cases h
  | event e =>
    rw [List.mem_singleton.mp h]
    rfl

theorem kind_of_warning? {d : Definition} {w : Warning} (h : d.warning? = some w) :
    w.kind = .unsupportedFeature := by
  cases d with
  | unsupported keyword name =>
    cases h
    rfl
  | _ => cases h

end Warning

namespace Script

/-! ## Results of statements -/

/-- Why statements are refused. -/
def fault? : Except Fault Definition → Option Fault
  | .ok _ => none
  | .error fault => some fault

def faults (results : List (Except Fault Definition)) : List Fault := results.filterMap fault?

theorem mapM_read (ss : List Text) : ss.mapM Definition.read =
    ((faults (ss.map Definition.read)).head?).elim
      (.ok (successes (ss.map Definition.read))) .error := by
  induction ss with
  | nil => rfl
  | cons s ss ih =>
    rw [List.mapM_cons, ih, List.map_cons]
    cases Definition.read s with
    | error fault => rfl
    | ok d =>
      have same : faults (.ok d :: ss.map Definition.read) = faults (ss.map Definition.read) := rfl
      rw [same]
      cases (faults (ss.map Definition.read)).head? <;> rfl

theorem map_reason_failures (place : Nat) (results : List (Except Fault Definition)) :
    (failures place results).map Warning.reason = (faults results).map Fault.message := by
  induction results generalizing place with
  | nil => rfl
  | cons r results ih =>
    cases r with
    | ok d => exact ih (place + 1)
    | error fault => exact congrArg (fault.message :: ·) (ih (place + 1))

theorem kind_of_mem_failures {place : Nat} {results : List (Except Fault Definition)} {w : Warning}
    (h : w ∈ failures place results) : w.kind = .parseFailure := by
  induction results generalizing place with
  | nil => cases h
  | cons r results ih =>
    cases r with
    | ok d => exact ih h
    | error fault =>
      rcases List.mem_cons.mp h with rfl | h
      · rfl
      · exact ih h

/-- The tables that statements define. -/
def tablesIn (ss : List Text) : List Table :=
  (successes (ss.map Definition.read)).filterMap Definition.table?

/-- The members that statements define, with the names of their tables. -/
def membersIn (ss : List Text) : List (Text × Member) :=
  (successes (ss.map Definition.read)).filterMap Definition.member?

/-- The members whose table is not there. -/
def orphansIn (ss : List Text) : List (Text × Member) :=
  (membersIn ss).filter (!(Schema.ofTables (tablesIn ss)).hasTableOf ·)

/-- What is made of statements without regard to those that do not count. -/
def schemaOf (ss : List Text) : Schema :=
  ((membersIn ss).filter (Schema.ofTables (tablesIn ss)).hasTableOf).foldl Schema.addMember
    (Schema.ofTables (tablesIn ss))

theorem read_eq (script : Text) : read script =
    { schema := schemaOf (statements script)
      warnings := (failures 1 (definitions script) ++
        (successes (definitions script)).filterMap Definition.warning?) ++
          (membersIn (statements script)).flatMap
            (Member.remarks (Schema.ofTables (tablesIn (statements script)))) } :=
  Reading.foldl_add _ _

/-- Reads statements of which each has to count. -/
def strict (ss : List Text) : Except SchemaError Schema := do
  let found ← (ss.mapM Definition.read).mapError SchemaError.statement
  (found.filterMap Definition.member?).foldlM add?
    (Schema.ofTables (found.filterMap Definition.table?))

theorem readStrict_eq (script : Text) : readStrict script = strict (statements script) := rfl

/-- The error for a member without a table. -/
def orphan (m : Text × Member) : SchemaError := .orphan m.2.noun m.2.name m.1

theorem strict_eq (ss : List Text) : strict ss =
    ((faults (ss.map Definition.read)).head?).elim
      (((orphansIn ss).head?).elim (.ok (schemaOf ss)) fun m => .error (orphan m))
      fun fault => .error (.statement fault) := by
  rw [strict, mapM_read]
  cases (faults (ss.map Definition.read)).head? with
  | some fault => rfl
  | none =>
    change (membersIn ss).foldlM add? (Schema.ofTables (tablesIn ss)) = _
    rw [foldlM_add?_eq, orphansIn, List.head?_filter]
    cases hfind : (membersIn ss).find? (!(Schema.ofTables (tablesIn ss)).hasTableOf ·) with
    | some m => rfl
    | none =>
      have known : (membersIn ss).filter (Schema.ofTables (tablesIn ss)).hasTableOf =
          membersIn ss := by
        apply List.filter_eq_self.mpr
        intro m hm
        simpa using List.find?_eq_none.mp hfind m hm
      rw [schemaOf, known]
      rfl

theorem eq_schemaOf_of_strict {ss : List Text} {s : Schema} (h : strict ss = .ok s) :
    s = schemaOf ss := by
  rw [strict_eq] at h
  cases hf : (faults (ss.map Definition.read)).head? with
  | some fault =>
    rw [hf] at h
    cases h
  | none =>
    rw [hf] at h
    cases ho : (orphansIn ss).head? with
    | some m =>
      rw [ho] at h
      cases h
    | none =>
      rw [ho] at h
      exact (Except.ok.inj h).symm

/-! ## Warnings -/

theorem ofKind_filterMap_warning? {kind : Warning.Kind} (hne : .unsupportedFeature ≠ kind)
    (ds : List Definition) : Warning.ofKind kind (ds.filterMap Definition.warning?) = [] := by
  apply Warning.ofKind_of_forall_ne _ hne
  intro w hw
  obtain ⟨d, -, hd⟩ := List.mem_filterMap.mp hw
  exact Warning.kind_of_warning? hd

theorem ofKind_parseFailure (script : Text) :
    Warning.ofKind .parseFailure (read script).warnings = failures 1 (definitions script) := by
  have remarks (ms : List (Text × Member)) (s : Schema) :
      Warning.ofKind .parseFailure (ms.flatMap (Member.remarks s)) = [] := by
    apply List.filter_eq_nil_iff.mpr
    intro w hw
    obtain ⟨m, -, hw⟩ := List.mem_flatMap.mp hw
    unfold Member.remarks at hw
    split at hw
    · rw [Warning.kind_of_mem_warnings hw]
      decide
    · rw [List.mem_singleton.mp hw]
      exact Bool.false_ne_true
  rw [read_eq, Warning.ofKind_append, Warning.ofKind_append, remarks,
    ofKind_filterMap_warning? (by decide), List.append_nil, List.append_nil,
    Warning.ofKind_of_forall fun w hw => kind_of_mem_failures hw]

theorem ofKind_structuralMismatch (script : Text) :
    Warning.ofKind .structuralMismatch (read script).warnings =
      (orphansIn (statements script)).map fun m => .undefinedTable m.2.noun m.1 m.2.name := by
  have remarks (ms : List (Text × Member)) (s : Schema) :
      Warning.ofKind .structuralMismatch (ms.flatMap (Member.remarks s)) =
        (ms.filter (!s.hasTableOf ·)).map fun m => .undefinedTable m.2.noun m.1 m.2.name := by
    induction ms with
    | nil => rfl
    | cons m ms ih =>
      rw [List.flatMap_cons, Warning.ofKind_append, ih, List.filter_cons]
      cases hm : s.hasTableOf m with
      | true =>
        have said : Member.remarks s m = m.2.warnings m.1 := if_pos hm
        rw [said, Warning.ofKind_of_forall_ne (fun w hw => Warning.kind_of_mem_warnings hw)
          (by decide)]
        rfl
      | false =>
        have said : Member.remarks s m = [.undefinedTable m.2.noun m.1 m.2.name] :=
          if_neg (Bool.eq_false_iff.mp hm)
        rw [said]
        rfl
  rw [read_eq, Warning.ofKind_append, Warning.ofKind_append, remarks,
    ofKind_filterMap_warning? (by decide), List.append_nil,
    Warning.ofKind_of_forall_ne (fun w hw => kind_of_mem_failures hw) (by decide)]
  rfl

/-! ## Statements that count -/

/-- Whether a statement counts beside a schema: it is read, and if it defines a member, the table of
this member is there. -/
def counts (s : Schema) (statement : Text) : Bool :=
  (Definition.read statement).toOption.any fun d => d.member?.all s.hasTableOf

theorem hasTableOf_schemaOf (ss : List Text) :
    (schemaOf ss).hasTableOf = (Schema.ofTables (tablesIn ss)).hasTableOf := by
  have fold (ms : List (Text × Member)) (s : Schema) :
      (ms.foldl Schema.addMember s).hasTableOf = s.hasTableOf := by
    induction ms generalizing s with
    | nil => rfl
    | cons m ms ih => rw [List.foldl_cons, ih, Schema.hasTableOf_addMember]
  exact fold _ _

theorem successes_filter_counts (s : Schema) (ss : List Text) :
    successes ((ss.filter (counts s)).map Definition.read) =
      (successes (ss.map Definition.read)).filter fun d => d.member?.all s.hasTableOf := by
  induction ss with
  | nil => rfl
  | cons statement ss ih =>
    rw [List.filter_cons, counts]
    unfold successes at ih ⊢
    cases hread : Definition.read statement with
    | error fault => simpa [hread, Except.toOption, List.filterMap_cons] using ih
    | ok d =>
      cases hd : d.member?.all s.hasTableOf with
      | false => simpa [hread, hd, Except.toOption, List.filterMap_cons] using ih
      | true => simpa [hread, hd, Except.toOption, List.filterMap_cons] using ih

theorem faults_filter_counts (s : Schema) (ss : List Text) :
    faults ((ss.filter (counts s)).map Definition.read) = [] := by
  apply List.filterMap_eq_nil_iff.mpr
  intro r hr
  obtain ⟨statement, hs, rfl⟩ := List.mem_map.mp hr
  have hcounts := (List.mem_filter.mp hs).2
  rw [counts] at hcounts
  cases hread : Definition.read statement with
  | ok d => rfl
  | error fault =>
    rw [hread] at hcounts
    cases hcounts

theorem tablesIn_filter_counts (s : Schema) (ss : List Text) :
    tablesIn (ss.filter (counts s)) = tablesIn ss := by
  rw [tablesIn, tablesIn, successes_filter_counts]
  induction successes (ss.map Definition.read) with
  | nil => rfl
  | cons d ds ih =>
    cases d with
    | member owner m =>
      rw [List.filter_cons]
      split
      · exact ih
      · exact ih
    | table t => exact congrArg (t :: ·) ih
    | unsupported keyword name => exact ih
    | nothing => exact ih

theorem membersIn_filter_counts (s : Schema) (ss : List Text) :
    membersIn (ss.filter (counts s)) = (membersIn ss).filter s.hasTableOf := by
  rw [membersIn, membersIn, successes_filter_counts]
  induction successes (ss.map Definition.read) with
  | nil => rfl
  | cons d ds ih =>
    cases d with
    | member owner m =>
      have member : (Definition.member owner m).member? = some (owner, m) := rfl
      rw [List.filter_cons, List.filterMap_cons, member]
      simp only [Option.all_some, List.filter_cons]
      by_cases hm : s.hasTableOf (owner, m) = true
      · rw [if_pos hm, if_pos hm]
        exact congrArg ((owner, m) :: ·) ih
      · rw [if_neg hm, if_neg hm]
        exact ih
    | table t => exact ih
    | unsupported keyword name => exact ih
    | nothing => exact ih

/-- The statements that count are read strictly as the schema that all of them give. -/
theorem strict_filter_counts (ss : List Text) :
    strict (ss.filter (counts (schemaOf ss))) = .ok (schemaOf ss) := by
  have members := membersIn_filter_counts (schemaOf ss) ss
  have tables := tablesIn_filter_counts (schemaOf ss) ss
  rw [hasTableOf_schemaOf] at members
  have known : ((membersIn ss).filter (Schema.ofTables (tablesIn ss)).hasTableOf).filter
      (Schema.ofTables (tablesIn ss)).hasTableOf =
        (membersIn ss).filter (Schema.ofTables (tablesIn ss)).hasTableOf :=
    List.filter_eq_self.mpr fun m hm => (List.mem_filter.mp hm).2
  have orphans : orphansIn (ss.filter (counts (schemaOf ss))) = [] := by
    rw [orphansIn, members, tables]
    apply List.filter_eq_nil_iff.mpr
    intro m hm
    rw [(List.mem_filter.mp hm).2]
    decide
  have schema : schemaOf (ss.filter (counts (schemaOf ss))) = schemaOf ss := by
    conv_lhs => rw [schemaOf, members, tables, known]
    rfl
  rw [strict_eq, faults_filter_counts, orphans, schema]
  rfl

/-! ## Agreement -/

theorem statements_keeping {s : Schema} {script : Text}
    (h : ∀ part ∈ (parts 0 script).dropLast, counts s (Text.trim part.1) = false →
      balance .code part.2 = 0) :
    statements (keeping (fun piece => counts s (Text.trim piece)) 0 script) =
      (statements script).filter (counts s) := by
  have kept := statementsIn_keeping (fun piece => counts s (Text.trim piece)) h
  have trimmed : ((pieces .code 0 script).filter fun piece => counts s (Text.trim piece)).map
      Text.trim = ((pieces .code 0 script).map Text.trim).filter (counts s) := by
    rw [List.filter_map]
    rfl
  rw [statementsIn, statementsIn, trimmed] at kept
  rw [statements, kept, statements, List.filter_filter, List.filter_filter]
  simp only [Bool.and_comm]

/-- A script without the statements that do not count in it. -/
def counted (script : Text) : Text :=
  keeping (fun piece => counts (read script).schema (Text.trim piece)) 0 script

/-- The strict reading succeeds just if no statement is refused and no member lacks its table, and
gives the schema of the lenient reading. The first of the warnings about these says where it stops,
with the refused statements before the members. The lenient reading gives what the strict one gives
for the statements that count, also in a script without the others if the brackets of these balance.
-/
theorem readStrict_read (script : Text) :
    ((∃ s, readStrict script = .ok s) ↔
      Warning.ofKind .parseFailure (read script).warnings = [] ∧
        Warning.ofKind .structuralMismatch (read script).warnings = []) ∧
    (∀ s, readStrict script = .ok s → s = (read script).schema) ∧
    (∀ w ∈ (Warning.ofKind .parseFailure (read script).warnings).head?,
      ∃ fault, readStrict script = .error (.statement fault) ∧ fault.message = w.reason) ∧
    (Warning.ofKind .parseFailure (read script).warnings = [] →
      ∀ w ∈ (Warning.ofKind .structuralMismatch (read script).warnings).head?,
        ∃ noun name table, readStrict script = .error (.orphan noun name table) ∧
          w = .undefinedTable noun table name) ∧
    strict ((statements script).filter (counts (read script).schema)) =
      .ok (read script).schema ∧
    ((∀ part ∈ (parts 0 script).dropLast,
        counts (read script).schema (Text.trim part.1) = false → balance .code part.2 = 0) →
      readStrict (counted script) = .ok (read script).schema) := by
  have schema : (read script).schema = schemaOf (statements script) := by rw [read_eq]
  have hstrict : readStrict script =
      ((faults (definitions script)).head?).elim
        (((orphansIn (statements script)).head?).elim (.ok (schemaOf (statements script)))
          fun m => .error (orphan m))
        fun fault => .error (.statement fault) := strict_eq _
  have reasons := map_reason_failures 1 (definitions script)
  have refused : failures 1 (definitions script) = [] ↔ faults (definitions script) = [] := by
    rw [← List.map_eq_nil_iff (f := Warning.reason), reasons, List.map_eq_nil_iff]
  rw [ofKind_parseFailure, ofKind_structuralMismatch, List.map_eq_nil_iff, refused, schema]
  refine ⟨?ok, fun s h => ?same, fun w hw => ?fault, fun hnone w hw => ?orphan,
    strict_filter_counts _, fun hbalance => ?text⟩
  case ok =>
    rw [hstrict]
    cases faults (definitions script) with
    | cons fault _ => simp
    | nil => cases orphansIn (statements script) <;> simp
  case same => exact eq_schemaOf_of_strict h
  case fault =>
    have first := congrArg List.head? reasons
    rw [List.head?_map, List.head?_map, Option.mem_def.mp hw] at first
    obtain ⟨fault, hfault, hreason⟩ := Option.map_eq_some_iff.mp first.symm
    exact ⟨fault, by rw [hstrict, hfault]; rfl, hreason⟩
  case orphan =>
    rw [List.head?_map] at hw
    obtain ⟨m, hm, rfl⟩ := Option.map_eq_some_iff.mp hw
    exact ⟨m.2.noun, m.2.name, m.1, by rw [hstrict, hnone, hm]; rfl, rfl⟩
  case text =>
    rw [← schema] at hbalance ⊢
    rw [readStrict_eq, counted, statements_keeping hbalance, schema]
    exact strict_filter_counts _

/-- A script with a refused statement and a member without a table. -/
def mixed : Text :=
  "DEFINE TABLE t; DEFINE INDEX ON t; DEFINE INDEX i ON u FIELDS (a); DEFINE INDEX g ON t FIELDS a"

theorem readStrict_read_mixed :
    (∀ part ∈ (parts 0 mixed).dropLast,
      counts (read mixed).schema (Text.trim part.1) = false → balance .code part.2 = 0) ∧
    readStrict (counted mixed) = .ok (read mixed).schema ∧
    ∃ w fault, (Warning.ofKind .parseFailure (read mixed).warnings).head? = some w ∧
      readStrict mixed = .error (.statement fault) ∧ fault.message = w.reason := by
  have balanced : ∀ part ∈ (parts 0 mixed).dropLast,
      counts (read mixed).schema (Text.trim part.1) = false → balance .code part.2 = 0 := by
    decide +kernel
  obtain ⟨-, -, first, -, -, without⟩ := readStrict_read mixed
  have warned : (Warning.ofKind .parseFailure (read mixed).warnings).head?.isSome = true := by
    decide +kernel
  obtain ⟨w, hw⟩ := Option.isSome_iff_exists.mp warned
  obtain ⟨fault, hfault, hreason⟩ := first w hw
  exact ⟨balanced, without balanced, w, fault, hw, hfault, hreason⟩

/-- A script with a member that has no table and closes a bracket, so that the bracket that another
member opens does not hide the end of its statement. -/
def crooked : Text :=
  "DEFINE INDEX i ON no FIELDS a); DEFINE TABLE t; DEFINE INDEX g ON t FIELDS (; DEFINE TABLE u"

theorem not_readStrict_counted :
    ¬∀ script, readStrict (counted script) = .ok (read script).schema := by
  intro h
  exact absurd (h crooked) (by decide +kernel)

end Script

end SchemaDrift
