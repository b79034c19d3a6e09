import SchemaDrift.Proofs.Statement.Clauses
import SchemaDrift.Proofs.Statement.Grants
import SchemaDrift.Proofs.Statement.Heads
import SchemaDrift.Reading.Script

namespace SchemaDrift

/-!
# Written fields and indexes

A field and an index are read back from the definitions that are written for them.
-/

/-- The types and expressions of a field. -/
def Field.texts (f : Field) : List Text :=
  f.type :: (f.value.toList ++ (f.assertion.toList ++ (f.default.toList ++
    f.permissions.granted.map (·.2))))

theorem Field.mem_texts_of_permission {f : Field} {op : Operation} {expr : Text}
    (h : f.permissions.get op = some expr) : expr ∈ f.texts := by
  simp only [Field.texts, List.mem_cons, List.mem_append, List.mem_map]
  exact .inr (.inr (.inr (.inr ⟨_, Statement.mem_granted h, rfl⟩)))

/-- Whether the field can be written: its name is a path, and no text in it ends a clause. -/
structure Field.Writable (f : Field) : Prop where
  isPath : IsPath f.name
  settled : ∀ t ∈ f.texts, Script.Settled t
  free : ∀ t ∈ f.texts, ∀ k ∈ ("FLEXIBLE" : Text) :: Statement.fieldClauses, Keyword.Free k t
  permissions : f.permissions.Writable

/-- Whether the index can be written: it has columns, and no column holds a comma or ends the
clause of the columns. -/
structure Index.Writable (i : Index) : Prop where
  isName : IsName i.name
  columns : i.columns ≠ []
  settled : ∀ c ∈ i.columns, Script.Settled c
  commas : ∀ c ∈ i.columns, ',' ∉ c
  free : ∀ c ∈ i.columns, ∀ k ∈ Statement.indexClauses, Keyword.Free k c

instance (i : Index) : Decidable i.Writable :=
  decidable_of_iff (IsName i.name ∧ i.columns ≠ [] ∧ (∀ c ∈ i.columns, Script.Settled c) ∧
      (∀ c ∈ i.columns, ',' ∉ c) ∧
      ∀ c ∈ i.columns, ∀ k ∈ Statement.indexClauses, Keyword.Free k c)
    ⟨fun ⟨hn, hc, hs, hm, hf⟩ => ⟨hn, hc, hs, hm, hf⟩,
      fun h => ⟨h.isName, h.columns, h.settled, h.commas, h.free⟩⟩

/-- Reads a definition that has this noun. -/
def Definition.readAs (statement : Text) : Noun → Except Fault Definition
  | .table => (Statement.readTable statement).map .table
  | .field => (Statement.expect .field statement (Head.field? statement)).map fun head =>
      .member head.table (.field (Statement.field head))
  | .index => (Statement.expect .index statement (Head.index? statement)).bind fun head =>
      (Statement.index statement head).map fun i => .member head.table (.index i)
  | .event => (Statement.expect .event statement (Head.event? statement)).bind fun head =>
      (Statement.event statement head).map fun e => .member head.table (.event e)

theorem Definition.read_of_uppercase {statement word rest : Text} {noun : Noun}
    (h : Head.noun? statement = some (word, rest)) (hword : Text.uppercase word = noun.keyword) :
    Definition.read statement = Definition.readAs statement noun := by
  rw [Definition.read, h]
  simp only [hword]
  cases noun with
  | table => rw [if_pos rfl, readAs]
  | field =>
    rw [if_neg (by decide), if_pos rfl, readAs]
    cases Statement.expect .field statement (Head.field? statement) <;> rfl
  | index =>
    rw [if_neg (by decide), if_neg (by decide), if_pos rfl, readAs]
    cases Statement.expect .index statement (Head.index? statement) with
    | error fault => rfl
    | ok head =>
      simp only [bind, Except.bind]
      cases Statement.index statement head <;> rfl
  | event =>
    rw [if_neg (by decide), if_neg (by decide), if_neg (by decide), if_pos rfl, readAs]
    cases Statement.expect .event statement (Head.event? statement) with
    | error fault => rfl
    | ok head =>
      simp only [bind, Except.bind]
      cases Statement.event statement head <;> rfl

theorem Definition.read_of_noun? {statement rest : Text} {noun : Noun}
    (h : Head.noun? statement = some (noun.keyword, rest)) :
    Definition.read statement = Definition.readAs statement noun :=
  read_of_uppercase h (by cases noun <;> decide)

namespace Statement

open Statement.Clauses

/-! ## Fields -/

/-- The clauses of a written field in front of its permissions. -/
def clausesOfField (f : Field) : Clauses :=
  flag "FLEXIBLE" f.flexible ++ (optional "TYPE" (some f.type) ++ (optional "VALUE" f.value ++
    (optional "ASSERT" f.assertion ++ (optional "DEFAULT" f.default ++
      flag "READONLY" f.readonly))))

/-- The parts of a written field behind its table. -/
def fieldParts (f : Field) : List Text :=
  (clausesOfField f).parts ++ permissionParts f.permissions

theorem writeField_eq (table : Text) (f : Field) (mode : Mode) :
    writeField table f mode =
      Head.definition .field mode (f.name :: (Head.onTable table ++ fieldParts f)) ++ [';'] := by
  have clauses : phrase (fieldParts f) =
      word "FLEXIBLE" f.flexible ++ (clause "TYPE" (some f.type) ++ (clause "VALUE" f.value ++
        (clause "ASSERT" f.assertion ++ (clause "DEFAULT" f.default ++
          (word "READONLY" f.readonly ++ permissions f.permissions))))) := by
    simp only [fieldParts, clausesOfField, parts_append, phrase_append, phrase_optional,
      phrase_flag, phrase_permissionParts, List.append_assoc]
  have written := Head.definition_member .field mode f.name table (fieldParts f)
  rw [clauses] at written
  rw [written]
  unfold writeField
  simp only [List.append_assoc]
  rw [Head.define_field]
  rfl

/-- The words of the clauses of a field, in the order in which they are written. -/
def fieldWords : List Text := ["FLEXIBLE", "TYPE", "VALUE", "ASSERT", "DEFAULT", "READONLY"]

theorem words_field (f : Field) : (clausesOfField f).words.Sublist fieldWords := by
  simp only [clausesOfField, words_append]
  apply (words_flag_sublist "FLEXIBLE" f.flexible).append
  apply (words_optional_sublist "TYPE" (some f.type)).append
  apply (words_optional_sublist "VALUE" f.value).append
  apply (words_optional_sublist "ASSERT" f.assertion).append
  apply (words_optional_sublist "DEFAULT" f.default).append
  exact words_flag_sublist "READONLY" f.readonly

theorem isSolid_fieldClauses : ∀ k ∈ fieldClauses, Keyword.IsSolid k := by decide

theorem bodies_field {P : Text → Prop} {f : Field} (h : ∀ t ∈ f.texts, P t) :
    ∀ c ∈ clausesOfField f, ∀ b ∈ c.2, P b := by
  simp only [Field.texts, List.forall_mem_cons, List.forall_mem_append, Option.mem_toList] at h
  obtain ⟨htype, hvalue, hassert, hdefault, -⟩ := h
  refine forall_append (bodies_flag _ _) ?_
  refine forall_append (bodies_optional fun b hb => ?_) ?_
  · rwa [← Option.mem_some_iff.mp hb]
  refine forall_append (bodies_optional hvalue) ?_
  refine forall_append (bodies_optional hassert) ?_
  exact forall_append (bodies_optional hdefault) (bodies_flag _ _)

/-- The words that end a clause of a field stand alone nowhere in its permissions, except for the
one that starts them. -/
theorem free_permissions {f : Field} (h : f.Writable) {k : Text}
    (hk : k ∈ ("FLEXIBLE" : Text) :: fieldClauses) (hne : k ≠ "PERMISSIONS") :
    ∀ q ∈ permissionParts f.permissions, Keyword.Free k q := by
  have words : ∀ w ∈ (("PERMISSIONS" : Text) :: "FOR" :: Operation.all.map Operation.keyword),
      ∀ k ∈ ("FLEXIBLE" : Text) :: fieldClauses, k ≠ "PERMISSIONS" → Keyword.Free k w := by decide
  have free : ∀ w ∈ (("PERMISSIONS" : Text) :: "FOR" :: Operation.all.map Operation.keyword),
      Keyword.Free k w := fun w hw => words w hw k hk hne
  refine forall_permissionParts (free _ (by simp)) (free _ (by simp)) (fun op => ?_) ?_
  · exact free _ (by simp)
  · intro op expr he
    refine h.free expr ?_ k hk
    exact Field.mem_texts_of_permission he

theorem head?_permissionParts (p : Permissions) :
    ∀ w ∈ (permissionParts p).head?, w = "PERMISSIONS" := by
  unfold permissionParts
  split
  · simp
  · rintro _ ⟨⟩
    rfl

theorem legible_field {f : Field} (h : f.Writable) :
    Legible fieldClauses (clausesOfField f) (permissionParts f.permissions) := by
  have sub := words_field f
  have solid : ∀ w ∈ fieldWords, Keyword.IsSolid w := by decide
  have known : ∀ w ∈ fieldWords.tail, w ∈ fieldClauses := by decide
  refine ⟨fun w hw => solid w (sub.subset hw), sub.nodup (by decide), ?_, ?_, ?_, ?_⟩
  · exact bodies_field fun t ht => (h.settled t ht).isBody
  · exact bodies_field fun t ht k hk => h.free t ht k (List.mem_cons_of_mem _ hk)
  · exact fun w hw => known w (sub.tail.subset hw)
  · intro w hw
    rw [head?_permissionParts f.permissions w hw]
    decide

theorem body_or_flag {f : Field} : ∀ c ∈ clausesOfField f,
    c.2.isSome ∨ c.1 = ("FLEXIBLE" : Text) ∨ c.1 = ("READONLY" : Text) := by
  have optional (k : Text) (o : Option Text) : ∀ c ∈ optional k o,
      c.2.isSome ∨ c.1 = ("FLEXIBLE" : Text) ∨ c.1 = ("READONLY" : Text) := by
    intro c hc
    obtain ⟨b, -, rfl⟩ := List.mem_map.mp hc
    exact .inl rfl
  refine forall_append (fun c hc => .inr (.inl ?_)) ?_
  · exact List.mem_singleton.mp ((words_flag_sublist "FLEXIBLE" f.flexible).subset
      (List.mem_map_of_mem hc))
  refine forall_append (optional _ _) ?_
  refine forall_append (optional _ _) ?_
  refine forall_append (optional _ _) ?_
  refine forall_append (optional _ _) fun c hc => .inr (.inr ?_)
  exact List.mem_singleton.mp ((words_flag_sublist "READONLY" f.readonly).subset
    (List.mem_map_of_mem hc))

theorem body?_field {f : Field} (h : f.Writable) {keyword : Text}
    (hk : keyword ∈ (["TYPE", "VALUE", "ASSERT", "DEFAULT"] : List Text)) :
    Clause.body? keyword fieldClauses (phrase (fieldParts f)) =
      ((clausesOfField f).lookup keyword).join := by
  obtain ⟨hm, hpermissions, hflexible, hreadonly⟩ : keyword ∈ fieldClauses ∧
      keyword ≠ "PERMISSIONS" ∧ ("FLEXIBLE" : Text) ≠ keyword ∧ ("READONLY" : Text) ≠ keyword := by
    have all : ∀ k ∈ (["TYPE", "VALUE", "ASSERT", "DEFAULT"] : List Text), k ∈ fieldClauses ∧
        k ≠ "PERMISSIONS" ∧ ("FLEXIBLE" : Text) ≠ k ∧ ("READONLY" : Text) ≠ k := by decide
    exact all keyword hk
  have hm' : keyword ∈ ("FLEXIBLE" : Text) :: fieldClauses := List.mem_cons_of_mem _ hm
  refine body?_clauses (isSolid_fieldClauses keyword hm) isSolid_fieldClauses (legible_field h) ?_
    (free_permissions h hm' hpermissions) ?_
  · exact fun c hc _ => bodies_field (fun t ht => h.free t ht keyword hm') c hc
  · rintro c hc rfl
    rcases body_or_flag c hc with hb | hb | hb
    · exact hb
    · exact absurd hb.symm hflexible
    · exact absurd hb.symm hreadonly

theorem occurs_field {f : Field} (h : f.Writable) {keyword : Text}
    (hk : keyword ∈ (["FLEXIBLE", "READONLY"] : List Text)) :
    Keyword.occurs keyword (phrase (fieldParts f)) =
      decide (keyword ∈ (clausesOfField f).words) := by
  have all : ∀ k ∈ (["FLEXIBLE", "READONLY"] : List Text), Keyword.IsSolid k ∧
      k ∈ ("FLEXIBLE" : Text) :: fieldClauses ∧ k ≠ "PERMISSIONS" := by decide
  obtain ⟨hsolid, hm, hne⟩ := all keyword hk
  exact occurs_clauses hsolid (legible_field h).solid
    (bodies_field fun t ht => h.free t ht keyword hm) (free_permissions h hm hne)

/-- A written field is read back. -/
theorem field_fieldParts {f : Field} (h : f.Writable) (table : Text) :
    field ⟨f.name, table, phrase (fieldParts f)⟩ = f := by
  have free : ∀ p ∈ (clausesOfField f).parts, Keyword.Free "PERMISSIONS" p := by
    refine forall_parts (fun w hw => ?_) (bodies_field fun t ht => h.free t ht _ (by decide))
    have words : ∀ w ∈ fieldWords, Keyword.Free "PERMISSIONS" w := by decide
    exact words w ((words_field f).subset hw)
  have hpermissions : Clause.permissions (phrase (fieldParts f)) = f.permissions :=
    permissions_phrase h.permissions free
  have htype : Clause.body? "TYPE" fieldClauses (phrase (fieldParts f)) = some f.type := by
    rw [body?_field h (by decide)]
    simp [clausesOfField, List.lookup_append, lookup_flag, lookup_optional]
  have hvalue : Clause.body? "VALUE" fieldClauses (phrase (fieldParts f)) = f.value := by
    rw [body?_field h (by decide)]
    simp [clausesOfField, List.lookup_append, lookup_flag, lookup_optional, join_map_some]
  have hassert : Clause.body? "ASSERT" fieldClauses (phrase (fieldParts f)) = f.assertion := by
    rw [body?_field h (by decide)]
    simp [clausesOfField, List.lookup_append, lookup_flag, lookup_optional, join_map_some]
  have hdefault : Clause.body? "DEFAULT" fieldClauses (phrase (fieldParts f)) = f.default := by
    rw [body?_field h (by decide)]
    simp [clausesOfField, List.lookup_append, lookup_flag, lookup_optional, join_map_some]
  have hflexible : Keyword.occurs "FLEXIBLE" (phrase (fieldParts f)) = f.flexible := by
    rw [occurs_field h (by decide)]
    simp [clausesOfField, mem_words_flag, mem_words_optional]
  have hreadonly : Keyword.occurs "READONLY" (phrase (fieldParts f)) = f.readonly := by
    rw [occurs_field h (by decide)]
    simp [clausesOfField, mem_words_flag, mem_words_optional]
  simp only [field, htype, hvalue, hassert, hdefault, hflexible, hreadonly, hpermissions]
  rfl

theorem settled_permissionParts {p : Permissions}
    (h : ∀ op, ∀ expr ∈ p.get op, Script.Settled expr) :
    ∀ q ∈ permissionParts p, Script.Settled q :=
  forall_permissionParts (by decide) (by decide) (fun op => by cases op <;> decide) h

theorem settled_field {f : Field} (hp : IsPath f.name) (h : ∀ t ∈ f.texts, Script.Settled t)
    {table : Text} (ht : IsName table) (mode : Mode) : Script.Settled
      (Head.definition .field mode (f.name :: (Head.onTable table ++ fieldParts f))) := by
  have words : ∀ w ∈ fieldWords, Script.Settled w := by decide
  apply Head.settled_definition .field mode
  simp only [List.forall_mem_cons, List.forall_mem_append, fieldParts]
  refine ⟨⟨hp.isTrimmed, hp.closed⟩, Head.settled_onTable ht, ?_,
    settled_permissionParts fun op expr he => h expr (Field.mem_texts_of_permission he)⟩
  exact forall_parts (fun w hw => words w ((words_field f).subset hw)) (bodies_field h)

/-- The definition of a field defines this field. -/
theorem read_field {f : Field} (h : f.Writable) {table : Text} (ht : IsName table) (mode : Mode) :
    Definition.read (Head.definition .field mode (f.name :: (Head.onTable table ++ fieldParts f))) =
      .ok (.member table (.field f)) := by
  obtain ⟨rest, hnoun⟩ :=
    Head.noun?_definition .field mode (f.name :: (Head.onTable table ++ fieldParts f))
  have hhead := Head.field?_definition h.isPath ht mode (fieldParts f)
  rw [Definition.read_of_noun? hnoun, Definition.readAs, hhead]
  simp only [expect, Except.map, field_fieldParts h]

/-! ## Indexes -/

/-- The clauses of a written index. -/
def clausesOfIndex (i : Index) : Clauses :=
  optional "FIELDS" (some (Text.join ", " i.columns)) ++ flag "UNIQUE" i.unique

theorem writeIndex_eq (table : Text) {i : Index} (h : i.isDetectionOnly = false) (mode : Mode) :
    writeIndex? table i mode = some (Head.definition .index mode
      (i.name :: (Head.onTable table ++ (clausesOfIndex i).parts)) ++ [';']) := by
  have clauses : phrase (clausesOfIndex i).parts =
      clause "FIELDS" (some (Text.join ", " i.columns)) ++ word "UNIQUE" i.unique := by
    simp only [clausesOfIndex, parts_append, phrase_append, phrase_optional, phrase_flag]
  have written := Head.definition_member .index mode i.name table (clausesOfIndex i).parts
  rw [clauses] at written
  rw [written, writeIndex?, if_neg (by simp [h])]
  simp only [List.append_assoc]
  apply congrArg some
  rw [Head.define_index]
  rfl

/-! ### Columns -/

theorem free_columns {keyword : Text} (hk : Keyword.IsSolid keyword) {columns : List Text}
    (h : ∀ c ∈ columns, Keyword.Free keyword c) :
    Keyword.Free keyword (Text.join ", " columns) := by
  rw [Keyword.free_iff]
  induction columns with
  | nil => rfl
  | cons c cs ih =>
    have here := Keyword.free_iff.mp (h c List.mem_cons_self)
    have rest := ih fun d hd => h d (List.mem_cons_of_mem c hd)
    cases cs with
    | nil => rwa [Text.join_singleton]
    | cons d ds =>
      have hedge : Keyword.isEdge (some ',') = true := rfl
      rw [Text.join_cons_cons, Keyword.cut?_append hk here rfl]
      change ((Keyword.cut? keyword none (',' :: ' ' :: Text.join ", " (d :: ds))).map _) = none
      rw [Keyword.cut?_cons_edge hk hedge, Keyword.cut?_cons_edge hk isEdge_blank, rest]
      rfl

theorem settled_columns {columns : List Text} (hne : columns ≠ [])
    (h : ∀ c ∈ columns, Script.Settled c) : Script.Settled (Text.join ", " columns) := by
  induction columns with
  | nil => exact absurd rfl hne
  | cons c cs ih =>
    have here := h c List.mem_cons_self
    cases cs with
    | nil => rwa [Text.join_singleton]
    | cons d ds =>
      have rest := ih (by simp) fun e he => h e (List.mem_cons_of_mem c he)
      have separated : Script.Closed (',' :: ' ' :: Text.join ", " (d :: ds)) := by
        apply Script.Closed.cons (by decide) rest.closed.blank
        rintro _ ⟨⟩
        decide
      rw [Text.join_cons_cons]
      refine ⟨here.trimmed.append _ rest.trimmed, here.closed.append separated ?_⟩
      rintro _ ⟨⟩
      decide

/-- The columns are read back from their list, whatever blanks are in front of it. -/
theorem map_trim_splitOn_join {cs : List Text} (hne : cs ≠ []) (h : ∀ c ∈ cs, Script.Settled c)
    (hcomma : ∀ c ∈ cs, ',' ∉ c) {b : Text} (hb : ∀ c ∈ b, Text.isBlank c = true) :
    (Text.splitOn ',' (b ++ Text.join ", " cs)).map Text.trim = cs := by
  have blank : ',' ∉ b := fun hm => by
    have := hb ',' hm
    revert this
    decide
  induction cs generalizing b with
  | nil => exact absurd rfl hne
  | cons c cs ih =>
    have trimmed : Text.trim (b ++ c) = c := by
      have nothing : ∀ e ∈ ([] : Text), Text.isBlank e = true := by simp
      have := Text.trim_surrounded (h c List.mem_cons_self).trimmed hb nothing
      rwa [List.append_nil] at this
    have apart : ',' ∉ b ++ c := by
      simp only [List.mem_append, not_or]
      exact ⟨blank, hcomma c List.mem_cons_self⟩
    cases cs with
    | nil => rw [Text.join_singleton, Text.splitOn_of_not_mem apart, List.map_singleton, trimmed]
    | cons d ds =>
      have rest := ih (by simp) (fun e he => h e (List.mem_cons_of_mem c he))
        (fun e he => hcomma e (List.mem_cons_of_mem c he)) (b := [' ']) (by simp) (by decide)
      have comma : (", " ++ Text.join ", " (d :: ds) : Text) =
          ',' :: ([' '] ++ Text.join ", " (d :: ds)) := rfl
      rw [Text.join_cons_cons, ← List.append_assoc, comma, Text.splitOn_append_cons,
        Text.splitOn_of_not_mem apart, List.map_append, List.map_singleton, trimmed, rest,
        List.singleton_append]

theorem columns_join {cs : List Text} (hne : cs ≠ []) (h : ∀ c ∈ cs, Script.Settled c)
    (hcomma : ∀ c ∈ cs, ',' ∉ c) : columns (Text.join ", " cs) = cs := by
  have split := map_trim_splitOn_join hne h hcomma (b := []) (by simp)
  rw [List.nil_append] at split
  rw [columns, split]
  apply List.filter_eq_self.mpr
  intro c hc
  simpa using (h c hc).trimmed.ne_nil

/-! ### Reading an index -/

theorem words_index (i : Index) :
    (clausesOfIndex i).words.Sublist ["FIELDS", "UNIQUE"] := by
  rw [clausesOfIndex, words_append]
  exact (words_optional_sublist "FIELDS" _).append (words_flag_sublist "UNIQUE" i.unique)

theorem bodies_index {P : Text → Prop} {i : Index} (h : P (Text.join ", " i.columns)) :
    ∀ c ∈ clausesOfIndex i, ∀ b ∈ c.2, P b := by
  refine forall_append (bodies_optional fun b hb => ?_) (bodies_flag _ _)
  rwa [← Option.mem_some_iff.mp hb]

theorem isSolid_indexClauses : ∀ k ∈ indexClauses, Keyword.IsSolid k := by decide

theorem free_list {i : Index} (h : i.Writable) {keyword : Text} (hk : keyword ∈ indexClauses) :
    Keyword.Free keyword (Text.join ", " i.columns) := by
  exact free_columns (isSolid_indexClauses keyword hk) fun c hc => h.free c hc keyword hk

theorem legible_index {i : Index} (h : i.Writable) :
    Legible indexClauses (clausesOfIndex i) [] := by
  have sub := words_index i
  have solid : ∀ w ∈ (["FIELDS", "UNIQUE"] : List Text), Keyword.IsSolid w := by decide
  have known : ∀ w ∈ (["UNIQUE"] : List Text), w ∈ indexClauses := by decide
  refine ⟨fun w hw => solid w (sub.subset hw), sub.nodup (by decide), ?_, ?_, ?_, ?_⟩
  · exact bodies_index (settled_columns h.columns h.settled).isBody
  · exact bodies_index fun k hk => free_list h hk
  · exact fun w hw => known w (sub.tail.subset hw)
  · simp

theorem body?_index {i : Index} (h : i.Writable) :
    Clause.body? "FIELDS" indexClauses (phrase (clausesOfIndex i).parts) =
      some (Text.join ", " i.columns) := by
  have fields : Keyword.IsSolid "FIELDS" := by decide
  have read := body?_clauses fields isSolid_indexClauses (legible_index h) ?_ (by simp) ?_
  · rw [List.append_nil] at read
    rw [read]
    simp [clausesOfIndex, List.lookup_append, lookup_optional]
  · exact forall_append (fun c hc hne => absurd (List.mem_singleton.mp
      ((words_optional_sublist "FIELDS" _).subset (List.mem_map_of_mem hc))) hne)
      fun c hc _ => bodies_flag "UNIQUE" i.unique c hc
  · refine forall_append (fun c hc _ => ?_) fun c hc hword => ?_
    · obtain ⟨b, -, rfl⟩ := List.mem_map.mp hc
      rfl
    · have hunique := List.mem_singleton.mp ((words_flag_sublist "UNIQUE" i.unique).subset
        (List.mem_map_of_mem hc))
      exact absurd (hunique.symm.trans hword) (by decide)

theorem occurs_index {i : Index} (h : i.Writable) {keyword : Text} (hk : keyword ∈ indexClauses) :
    Keyword.occurs keyword (phrase (clausesOfIndex i).parts) =
      decide (keyword ∈ (clausesOfIndex i).words) := by
  have nothing : ∀ q ∈ ([] : List Text), Keyword.Free keyword q := by simp
  have read := occurs_clauses (isSolid_indexClauses keyword hk) (legible_index h).solid
    (bodies_index (free_list h hk)) nothing
  rwa [List.append_nil] at read

/-- A written index is read back, if it is no index that the database manages on its own. -/
theorem index_clausesOfIndex {i : Index} (h : i.Writable) (hown : i.isDetectionOnly = false)
    (statement table : Text) :
    index statement ⟨i.name, table, phrase (clausesOfIndex i).parts⟩ = .ok i := by
  have hunique : Keyword.occurs "UNIQUE" (phrase (clausesOfIndex i).parts) = i.unique := by
    rw [occurs_index h (by decide)]
    simp [clausesOfIndex, mem_words_flag, mem_words_optional]
  have absent (k : Text) (hk : k ∈ indexClauses)
      (hne : k ∉ (["FIELDS", "UNIQUE"] : List Text)) :
      Keyword.occurs k (phrase (clausesOfIndex i).parts) = false := by
    rw [occurs_index h hk]
    exact decide_eq_false fun hm => hne ((words_index i).subset hm)
  obtain ⟨hsearch, hvector⟩ : i.search = false ∧ i.vector = false := by
    simpa [Index.isDetectionOnly] using hown
  simp only [index, body?_index h, Option.some_or, columns_join h.columns h.settled h.commas,
    hunique, absent "SEARCH" (by decide) (by decide), absent "FULLTEXT" (by decide) (by decide),
    absent "HNSW" (by decide) (by decide), absent "MTREE" (by decide) (by decide), Bool.or_self]
  cases i
  cases hsearch
  cases hvector
  rfl

theorem settled_index {i : Index} (hn : IsName i.name) (hne : i.columns ≠ [])
    (h : ∀ c ∈ i.columns, Script.Settled c) {table : Text} (ht : IsName table) (mode : Mode) :
    Script.Settled (Head.definition .index mode
      (i.name :: (Head.onTable table ++ (clausesOfIndex i).parts))) := by
  have words : ∀ w ∈ (["FIELDS", "UNIQUE"] : List Text), Script.Settled w := by decide
  apply Head.settled_definition .index mode
  simp only [List.forall_mem_cons, List.forall_mem_append]
  refine ⟨⟨hn.isTrimmed, hn.closed⟩, Head.settled_onTable ht, ?_⟩
  exact forall_parts (fun w hw => words w ((words_index i).subset hw))
    (bodies_index (settled_columns hne h))

/-- The definition of an index defines this index. -/
theorem read_index {i : Index} (h : i.Writable) (hown : i.isDetectionOnly = false) {table : Text}
    (ht : IsName table) (mode : Mode) :
    Definition.read (Head.definition .index mode
      (i.name :: (Head.onTable table ++ (clausesOfIndex i).parts))) =
        .ok (.member table (.index i)) := by
  obtain ⟨rest, hnoun⟩ :=
    Head.noun?_definition .index mode (i.name :: (Head.onTable table ++ (clausesOfIndex i).parts))
  have hhead := Head.index?_definition h.isName ht mode (clausesOfIndex i).parts
  rw [Definition.read_of_noun? hnoun, Definition.readAs, hhead]
  simp only [expect, Except.bind, Except.map, index_clausesOfIndex h hown]

end Statement

end SchemaDrift
