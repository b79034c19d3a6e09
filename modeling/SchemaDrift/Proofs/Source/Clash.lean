import SchemaDrift.Proofs.Merge.Segments
import SchemaDrift.Source.Modules

namespace SchemaDrift.Source

/-!
# Names that are given twice

The names of functions and modules are made of the names of indexes and tables, and different names
can become one. Here it is said which.
-/

variable {a b t : Text}

/-- The name in lower case, with underscores for the characters that an identifier cannot have. -/
def squashed (name : Text) : Text := name.map fun c => if isIdentChar c then c.toLower else '_'

theorem functionOf_eq (name : Text) :
    functionOf name = if isTaken (squashed name) then "index_" ++
      squashed name else squashed name :=
  rfl

/-! ## Functions -/

/-- Whether the function of one index is renamed to what is the function of another without that. -/
def RenamedTo (a b : Text) : Prop :=
  isTaken (squashed a) = true ∧ squashed b = "index_" ++ squashed a

/-- Whether two indexes have functions of one name. -/
def FunctionsClash (a b : Text) : Prop :=
  squashed a = squashed b ∨ RenamedTo a b ∨ RenamedTo b a

instance (a b : Text) : Decidable (RenamedTo a b) := inferInstanceAs (Decidable (_ ∧ _))

instance (a b : Text) : Decidable (FunctionsClash a b) := inferInstanceAs (Decidable (_ ∨ _ ∨ _))

theorem RenamedTo.isTaken_eq_false (h : RenamedTo a b) : isTaken (squashed b) = false :=
  h.2 ▸ isTaken_index_append _

theorem functionOf_eq_iff : functionOf a = functionOf b ↔ FunctionsClash a b := by
  rw [functionOf_eq, functionOf_eq]
  unfold FunctionsClash
  cases ha : isTaken (squashed a) <;> cases hb : isTaken (squashed b)
  · simp [RenamedTo, ha, hb]
  · have other : squashed a ≠ squashed b := fun h => by simp [h, hb] at ha
    simp [RenamedTo, ha, hb, other]
  · have other : squashed a ≠ squashed b := fun h => by simp [h, hb] at ha
    simp [RenamedTo, ha, hb, other, eq_comm]
  · have apart : ¬ RenamedTo a b := fun h => by simp [h.isTaken_eq_false] at hb
    have apart' : ¬ RenamedTo b a := fun h => by simp [h.isTaken_eq_false] at ha
    simp [apart, apart']

/-! ## Modules -/

/-- The squashed name without the copies of `index_` in front. -/
def bareName (table : Text) : Text := stripAll "index_" (squashed table)

/-- Whether the module of one table is renamed to the name of another. -/
def TakesName (a b : Text) : Prop := isPlain a = false ∧ b = "table_" ++ bareName a

/-- Whether two tables have modules of one name. -/
def ModulesClash (a b : Text) : Prop :=
  a = b ∨ (isPlain a = false ∧ isPlain b = false ∧ bareName a = bareName b) ∨ TakesName a b ∨
    TakesName b a

instance (a b : Text) : Decidable (TakesName a b) := inferInstanceAs (Decidable (_ ∧ _))

instance (a b : Text) : Decidable (ModulesClash a b) :=
  inferInstanceAs (Decidable (_ ∨ _ ∨ _ ∨ _))

theorem stripAll_append {p : Text} (hp : p ≠ []) (t : Text) :
    stripAll p (p ++ t) = stripAll p t := by
  rw [stripAll]
  split
  · rename_i h
    rw [Text.stripStart_append] at h
    cases h
  · rename_i rest h
    rw [Text.stripStart_append] at h
    cases h
    rw [if_neg (by simpa using hp)]

theorem bareName_eq (table : Text) : stripAll "index_" (functionOf table) = bareName table := by
  rw [functionOf_eq]
  split
  · exact stripAll_append (by decide) _
  · rfl

theorem stripAll_suffix (p t : Text) : stripAll p t <:+ t := by
  fun_induction stripAll p t with
  | case1 => exact List.suffix_refl _
  | case2 => exact List.suffix_refl _
  | case3 t rest h hp ih => exact ih.trans ⟨p, (Text.stripStart_eq_some_iff.mp h).symm⟩

theorem contains_append_eq_false {p : Text} {words : List Text}
    (h : ∀ word ∈ words, Text.stripStart p word = none) (t : Text) :
    words.contains (p ++ t) = false := by
  rw [List.contains_eq_mem, decide_eq_false_iff_not]
  intro hm
  have found := h _ hm
  rw [Text.stripStart_append] at found
  cases found

theorem isPlain_table_append (name : Text) : isPlain ("table_" ++ bareName name) = true := by
  have ident : (bareName name).all isIdentChar = true := by
    rw [← bareName_eq, List.all_eq_true]
    exact fun c hc => List.all_eq_true.mp (all_isIdentChar_functionOf name) c
      ((stripAll_suffix _ _).subset hc)
  have word : ("table_" : Text).all isIdentChar = true := by decide
  rw [isPlain, List.all_append, word, ident, contains_append_eq_false (by decide)]
  rfl

theorem TakesName.isPlain_eq_true (h : TakesName a b) : isPlain b = true :=
  h.2 ▸ isPlain_table_append a

theorem moduleOf_of_not_plain (h : isPlain a = false) : moduleOf a = "table_" ++ bareName a := by
  rw [moduleOf, bareName_eq, h]
  rfl

theorem moduleOf_of_plain (h : isPlain a = true) :
    moduleOf a = if keywords.contains a then "r#" ++ a else a := by
  rw [moduleOf, h]
  rfl

theorem raw_ne_of_plain (h : isPlain b = true) (a : Text) : "r#" ++ a ≠ b := by
  rintro rfl
  have mark : isPlain ("r#" ++ a) = false := by
    rw [isPlain, List.all_append]
    rfl
  rw [mark] at h
  cases h

theorem moduleOf_injective_of_plain (ha : isPlain a = true) (hb : isPlain b = true)
    (h : moduleOf a = moduleOf b) : a = b := by
  rw [moduleOf_of_plain ha, moduleOf_of_plain hb] at h
  split at h <;> split at h
  · exact List.append_cancel_left h
  · exact absurd h (raw_ne_of_plain hb a)
  · exact absurd h.symm (raw_ne_of_plain ha b)
  · exact h

theorem moduleOf_eq_table_append_iff (ha : isPlain a = true) :
    moduleOf a = "table_" ++ bareName b ↔ a = "table_" ++ bareName b := by
  rw [moduleOf_of_plain ha]
  split
  · rename_i hkeyword
    refine iff_of_false (raw_ne_of_plain (isPlain_table_append b) a) ?_
    rintro rfl
    rw [contains_append_eq_false (by decide)] at hkeyword
    cases hkeyword
  · rfl

theorem moduleOf_eq_iff : moduleOf a = moduleOf b ↔ ModulesClash a b := by
  unfold ModulesClash
  cases ha : isPlain a <;> cases hb : isPlain b
  · have apart : ¬ TakesName a b := fun h => by simp [h.isPlain_eq_true] at hb
    have apart' : ¬ TakesName b a := fun h => by simp [h.isPlain_eq_true] at ha
    rw [moduleOf_of_not_plain ha, moduleOf_of_not_plain hb]
    simp only [List.append_cancel_left_eq, apart, apart', or_false, true_and]
    exact ⟨.inr, fun h => h.elim (congrArg bareName) id⟩
  · have other : a ≠ b := fun h => by simp [h, hb] at ha
    rw [eq_comm, moduleOf_of_not_plain ha, moduleOf_eq_table_append_iff hb]
    simp [TakesName, ha, hb, other]
  · have other : a ≠ b := fun h => by simp [h, hb] at ha
    rw [moduleOf_of_not_plain hb, moduleOf_eq_table_append_iff ha]
    simp [TakesName, ha, hb, other]
  · simp only [TakesName, ha, hb, Bool.true_eq_false, false_and, or_false]
    exact ⟨moduleOf_injective_of_plain ha hb, congrArg moduleOf⟩

/-! ## Names in sources -/

/-- The names of the functions that the source of a table has. -/
def functionNames (t : Table) : List Text :=
  ("model" : Text) :: (t.indexes.filter (!·.isDetectionOnly)).map (functionOf ·.name) ++ [aggregate]

/-- The names of the modules of the tables. -/
def moduleNames (s : Schema) : List Text := (tableNames s).map moduleOf

/-- A function with the text behind its name. -/
def declaration (f : Text × Text) : Text := "pub fn " ++ (f.1 ++ ("() -> " ++ f.2))

theorem exists_declaration {i : Index} (h : i.isDetectionOnly = false) :
    ∃ body, indexFunction? i = some (declaration (functionOf i.name, body)) := by
  have eq := indexFunction?_eq h
  simp only [List.append_assoc] at eq
  exact ⟨_, eq⟩

theorem exists_indexFunctions (is : List Index) : ∃ fs : List (Text × Text),
    fs.map Prod.fst = (is.filter (!·.isDetectionOnly)).map (functionOf ·.name) ∧
      is.filterMap indexFunction? = fs.map declaration := by
  induction is with
  | nil => exact ⟨[], rfl, rfl⟩
  | cons i is ih =>
    obtain ⟨fs, hnames, hfs⟩ := ih
    cases hi : i.isDetectionOnly with
    | true =>
      refine ⟨fs, by simp [hi, hnames], ?_⟩
      rw [List.filterMap_cons_none (by rw [indexFunction?, hi]; rfl), hfs]
    | false =>
      obtain ⟨body, hbody⟩ := exists_declaration hi
      refine ⟨(functionOf i.name, body) :: fs, by simp [hi, hnames], ?_⟩
      rw [List.filterMap_cons_some hbody, hfs, List.map_cons]

theorem exists_modelFunction (m : Model) :
    ∃ body, modelFunction m = declaration ("model", body) := by
  refine ⟨"Model \x7b\n    " ++ (constructor m ++ ("\n" ++
    (callLine (bareCall "schemaless" (!m.schemafull)) ++ (callLine (bareCall "drop" m.drop) ++
      (callLine (permissionsCall m.permissions) ++
        (callLine (fieldsCall m.fields) ++ "\x7d\n")))))), ?_⟩
  unfold modelFunction
  simp only [List.append_assoc]
  rfl

theorem exists_aggregateFunction (is : List Index) :
    ∃ body, aggregateFunction is = '\n' :: declaration (aggregate, body) := by
  refine ⟨"Vec<Definition> \x7b\n    vec![" ++ (Text.join ", "
    (definition "model" :: is.map fun i => definition (functionOf i.name)) ++ "]\n\x7d\n"), ?_⟩
  unfold aggregateFunction
  simp only [List.append_assoc]
  rfl

theorem join_newline (f : Text) (fs : List Text) :
    Text.join "\n" (f :: fs) = f ++ fs.flatMap (fun g => '\n' :: g) := by
  induction fs generalizing f with
  | nil => simp
  | cons g fs ih =>
    rw [Text.join_cons_cons, ih, List.flatMap_cons, List.cons_append]
    rfl

/-- The source of a table is its functions, one after the other. -/
theorem exists_functions (t : Table) : ∃ fs :
    List (Text × Text), fs.map Prod.fst = functionNames t ∧
    file t = preamble t.name ++ Text.join "\n" (fs.map declaration) := by
  obtain ⟨fs, hnames, hfs⟩ := exists_indexFunctions t.indexes
  obtain ⟨body, hbody⟩ := exists_modelFunction (Model.ofTable t)
  obtain ⟨list, hlist⟩ := exists_aggregateFunction (t.indexes.filter (!·.isDetectionOnly))
  have functions : Text.join "\n"
      (((("model" : Text), body) :: (fs ++ [(aggregate, list)])).map declaration) =
      declaration ("model", body) ++ ((fs.map declaration).flatMap (fun f => '\n' :: f) ++
        '\n' :: declaration (aggregate, list)) := by
    rw [List.map_cons, join_newline, List.map_append, List.flatMap_append]
    simp
  refine ⟨(("model" : Text), body) :: (fs ++ [(aggregate, list)]),
    by simp [functionNames, hnames], ?_⟩
  rw [functions, file, hfs, hbody, hlist]
  simp only [List.append_assoc]

theorem nodup_functionNames_iff (t : Table) : (functionNames t).Nodup ↔
    (t.indexes.filter (!·.isDetectionOnly)).Pairwise fun i j => ¬ FunctionsClash i.name j.name := by
  have last : ¬ aggregate ∈ (t.indexes.filter (!·.isDetectionOnly)).map (functionOf ·.name) := by
    intro hm
    obtain ⟨i, -, hi⟩ := List.mem_map.mp hm
    exact Merge.functionOf_ne_aggregate i.name hi
  have first : ¬ ("model" : Text) ∈ (t.indexes.filter (!·.isDetectionOnly)).map
      (functionOf ·.name) ++ [aggregate] := by
    intro hm
    rcases List.mem_append.mp hm with hm | hm
    · obtain ⟨i, -, hi⟩ := List.mem_map.mp hm
      exact functionOf_ne_model i.name hi
    · revert hm
      decide
  rw [functionNames, List.cons_append, List.nodup_cons, and_iff_right first, List.nodup_append_comm,
    List.singleton_append, List.nodup_cons, and_iff_right last, List.Nodup, List.pairwise_map]
  simp only [Ne, functionOf_eq_iff]

theorem nodup_moduleNames_iff (s : Schema) : (moduleNames s).Nodup ↔
    (tableNames s).Pairwise fun a b => ¬ ModulesClash a b := by
  rw [moduleNames, List.Nodup, List.pairwise_map]
  simp only [Ne, moduleOf_eq_iff]

/-! ## The index of the modules -/

/-- The module that a line declares. -/
def declaredModule? (line : Text) : Option Text :=
  (Text.stripStart "pub mod " line).bind (Text.stripEnd ";")

/-- The modules that a source declares, each on a line of its own. -/
def declaredModules (source : Text) : List Text :=
  (Text.splitOn '\n' source).filterMap declaredModule?

theorem declaredModules_append (a b : Text) :
    declaredModules (a ++ '\n' :: b) = declaredModules a ++ declaredModules b := by
  rw [declaredModules, Text.splitOn_append_cons, List.filterMap_append]
  rfl

theorem declaredModules_of_line {line : Text} (h : '\n' ∉ line) :
    declaredModules line = (declaredModule? line).toList := by
  rw [declaredModules, Text.splitOn_of_not_mem h, List.filterMap_cons]
  cases declaredModule? line <;> rfl

theorem newline_not_mem_moduleOf (table : Text) : '\n' ∉ moduleOf table := by
  have ident {t : Text} (ht : ∀ c ∈ t, isIdentChar c = true) : '\n' ∉ t := fun hm => by
    cases ht _ hm
  cases hplain : isPlain table with
  | false =>
    have bare : '\n' ∉ bareName table := by
      rw [← bareName_eq]
      exact ident fun c hc => List.all_eq_true.mp (all_isIdentChar_functionOf table) c
        ((stripAll_suffix _ _).subset hc)
    rw [moduleOf_of_not_plain hplain, List.mem_append, not_or]
    exact ⟨by decide, bare⟩
  | true =>
    have own : '\n' ∉ table := by
      rw [isPlain, Bool.and_eq_true, Bool.and_eq_true] at hplain
      exact ident (List.all_eq_true.mp hplain.1.1)
    rw [moduleOf_of_plain hplain]
    split
    · rw [List.mem_append, not_or]
      exact ⟨by decide, own⟩
    · exact own

theorem declaredModules_moduleDeclaration (table : Text) :
    declaredModules (moduleDeclaration table) = [moduleOf table] := by
  have line : '\n' ∉ "pub mod " ++ (moduleOf table ++ ";") := by
    rw [List.mem_append, List.mem_append, not_or, not_or]
    exact ⟨by decide, newline_not_mem_moduleOf table, by decide⟩
  have own : declaredModules ("pub mod " ++ (moduleOf table ++ ";")) = [moduleOf table] := by
    rw [declaredModules_of_line line, declaredModule?, Text.stripStart_append, Option.bind_some,
      Text.stripEnd_eq_some_iff.mpr rfl, Option.toList_some]
  rw [moduleDeclaration, List.append_assoc, List.append_assoc]
  split
  · exact own
  · have path : '\n' ∉ "#[path = " ++ Text.quote (fileOf table) ++ "]" := by
      rw [List.mem_append, List.mem_append, not_or, not_or]
      exact ⟨⟨by decide, Text.newline_not_mem_quote _⟩, by decide⟩
    have split : ("#[path = " ++ Text.quote (fileOf table) ++ "]\n" : Text) ++
        ("pub mod " ++ (moduleOf table ++ ";")) =
          ("#[path = " ++ Text.quote (fileOf table) ++ "]") ++
            '\n' :: ("pub mod " ++ (moduleOf table ++ ";")) := by simp
    rw [split, declaredModules_append, declaredModules_of_line path, own]
    rfl

/-- A line that starts with another character declares no module. -/
theorem declaredModule?_append {a : Text} (h : ∃ c ∈ a.head?, c ≠ 'p') (t : Text) :
    declaredModule? (a ++ t) = none := by
  obtain ⟨c, hc, hne⟩ := h
  cases a with
  | nil => cases hc
  | cons d a =>
    obtain rfl := Option.some.inj hc
    have first : Text.stripStart "pub mod " (d :: (a ++ t)) = none := if_neg (Ne.symm hne)
    rw [declaredModule?, List.cons_append, first, Option.bind_none]

theorem declaredModules_extendLine (table rest : Text) :
    declaredModules (extendLine table ++ rest) = declaredModules rest := by
  have line : '\n' ∉ "    " ++ (aggregate ++ (".extend(" ++ (moduleOf table ++ ("::" ++
      (aggregate ++ "());"))))) := by
    simp only [List.mem_append, not_or]
    exact ⟨by decide, by decide, by decide, newline_not_mem_moduleOf table, by decide, by decide,
      by decide⟩
  have ends : ("());\n" : Text) = "());" ++ ['\n'] := by decide
  have split : extendLine table ++ rest = ("    " ++ (aggregate ++ (".extend(" ++
      (moduleOf table ++ ("::" ++ (aggregate ++ "());")))))) ++ '\n' :: rest := by
    unfold extendLine
    rw [ends]
    simp only [List.append_assoc, List.singleton_append]
  rw [split, declaredModules_append, declaredModules_of_line line,
    declaredModule?_append ⟨' ', by decide, by decide⟩, Option.toList_none, List.nil_append]

theorem declaredModules_moduleLine (table rest : Text) :
    declaredModules (moduleDeclaration table ++ '\n' :: rest) =
      moduleOf table :: declaredModules rest := by
  rw [declaredModules_append, declaredModules_moduleDeclaration, List.singleton_append]

/-- The index of the modules declares the modules of the tables and no others. -/
theorem declaredModules_modules (s : Schema) : declaredModules (modules s) = moduleNames s := by
  have extended (l : List Text) (rest : Text) :
      declaredModules (l.flatMap extendLine ++ rest) = declaredModules rest := by
    induction l with
    | nil => rfl
    | cons table l ih =>
      rw [List.flatMap_cons, List.append_assoc, declaredModules_extendLine, ih]
  have declared (l : List Text) (rest : Text) :
      declaredModules (l.flatMap (fun t => moduleDeclaration t ++ ['\n']) ++ rest) =
        l.map moduleOf ++ declaredModules rest := by
    induction l with
    | nil => rfl
    | cons table l ih =>
      simp only [List.flatMap_cons, List.append_assoc, List.map_cons, List.cons_append]
      rw [declaredModules_moduleLine, List.nil_append, ih]
  have fixed {a b : Text} (h : a = b ++ ['\n']) (hb : declaredModules b = []) (rest : Text) :
      declaredModules (a ++ rest) = declaredModules rest := by
    rw [h, List.append_assoc, List.singleton_append, declaredModules_append, hb, List.nil_append]
  have split : modules s =
      "//! Generated schema modules.\n\nuse schema_sync_core::model::Definition;\n\n" ++
        ((tableNames s).flatMap (fun t => moduleDeclaration t ++ ['\n']) ++
          (("\n/// Every definition in the schema.\npub fn " ++ aggregate ++
            "() -> Vec<Definition> \x7b\n    let mut " ++ aggregate ++ " = Vec::new();\n") ++
            ((tableNames s).flatMap extendLine ++ ("    " ++ aggregate ++ "\n\x7d\n")))) := by
    unfold modules
    simp only [List.append_assoc]
  have last : declaredModules ("    " ++ aggregate ++ "\n\x7d\n") = [] := by decide +kernel
  rw [split,
    fixed (b := "//! Generated schema modules.\n\nuse schema_sync_core::model::Definition;\n")
    (by decide +kernel) (by decide +kernel), declared, fixed
      (b := "\n/// Every definition in the schema.\npub fn " ++ aggregate ++
        "() -> Vec<Definition> \x7b\n    let mut " ++ aggregate ++ " = Vec::new();")
      (by decide +kernel) (by decide +kernel), extended, last, List.append_nil, moduleNames]

/-! ## Different names -/

/-- The functions of each source and the modules that the index declares have different names just
if no two indexes of a table and no two tables clash. -/
theorem distinct_names_iff (s : Schema) :
    (∀ t ∈ s.tables,
      (∃ fs : List (Text × Text), fs.map Prod.fst = functionNames t ∧
        file t = preamble t.name ++ Text.join "\n" (fs.map declaration)) ∧
      ((functionNames t).Nodup ↔ (t.indexes.filter (!·.isDetectionOnly)).Pairwise fun i j =>
        ¬ FunctionsClash i.name j.name)) ∧
    declaredModules (modules s) = moduleNames s ∧
    ((moduleNames s).Nodup ↔ (tableNames s).Pairwise fun a b => ¬ ModulesClash a b) :=
  ⟨fun t _ => ⟨exists_functions t, nodup_functionNames_iff t⟩, declaredModules_modules s,
    nodup_moduleNames_iff s⟩

/-- A schema with two indexes whose names differ in the case of letters. -/
def twoCases : Schema :=
  { tables := [{ name := "post", indexes :=
      [{ name := "by_name", columns := ["name"] }, { name := "By_Name", columns := ["title"] }] }] }

/-- Different names of indexes can give one name to two functions. -/
theorem not_forall_nodup_functionNames : ¬ ∀ s : Schema, (s.tables.map (·.name)).Nodup →
    (∀ t ∈ s.tables, (t.indexes.map (·.name)).Nodup) →
      (∀ t ∈ s.tables, (functionNames t).Nodup) ∧ (moduleNames s).Nodup := by
  intro h
  obtain ⟨functions, -⟩ := h twoCases (by decide) (by decide)
  have clash : ¬ (functionNames (twoCases.tables.head (by decide))).Nodup := by decide +kernel
  exact clash (functions _ (List.head_mem _))

end SchemaDrift.Source
