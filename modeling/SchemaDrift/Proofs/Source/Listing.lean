import SchemaDrift.Proofs.Model.Mirror
import SchemaDrift.Proofs.Source.Emitted
import SchemaDrift.Source.Table

namespace SchemaDrift

/-!
# Definitions of a generated source

The source of a table is read to its end. The definitions that it lists are the model of the table
and its indexes.
-/

namespace Source

open SchemaDrift.Source.Machine

variable {functions : List (Text × Value)} {e : Text} {v : Value}

/-! ## The model -/

theorem yields_constructor (m : Model) (hview : m.kind = .view ↔ m.viewQuery.isSome = true) :
    Yields functions (constructor m)
      (.model { name := m.name, kind := m.kind, viewQuery := m.viewQuery }) := by
  have space : IsLayout [' '] := by decide
  obtain ⟨name, kind, schemafull, drop, query, permissions, fields⟩ := m
  cases query with
  | some query =>
    have hkind : kind = .view := hview.mpr rfl
    subst hkind
    have args : YieldsAll functions _ [.text name, .text query] :=
      (yields_quote name).item.cons space (yields_quote query).yieldsAll
    have call := yields_function (f := .viewModel) (by decide) args rfl
    have form : ("Model::view(" : Text) ++ Text.quote name ++ ", " ++ Text.quote query ++ ")" =
        Function.viewModel.path ++
          '(' :: (Text.quote name ++ ',' :: ([' '] ++ Text.quote query) ++ [')']) := by
      change _ = ("Model::view" : Text) ++ _
      simp
    change Yields functions (("Model::view(" : Text) ++ _ ++ _ ++ _ ++ _) _
    rw [form]
    exact call
  | none =>
    cases kind with
    | view => exact absurd (hview.mp rfl) (by simp)
    | normal =>
      exact yields_function (f := .normalModel) (by decide) (yields_quote name).yieldsAll rfl
    | relation =>
      exact yields_function (f := .relationModel) (by decide) (yields_quote name).yieldsAll rfl

theorem Yields.callLine (h : Yields functions e v) {call : Text} {w : Value}
    (hcall : ∀ e, Yields functions e v → Yields functions (e ++ call) w) :
    Yields functions (e ++ callLine call) w := by
  have indent : IsLayout "        " := by decide
  have newline : IsLayout "\n" := by decide
  unfold Source.callLine
  split
  · rename_i hempty
    rw [← List.isEmpty_iff.mp hempty]
    exact hcall e h
  · have line := (hcall _ (h.layout indent)).layout newline
    simpa only [List.append_assoc] using line

theorem Yields.fieldsCall {m : Model} (h : Yields functions e (.model { m with fields := [] }))
    (hfields : ∀ f ∈ m.fields, f.2.Written) :
    Yields functions (e ++ fieldsCall m.fields) (.model m) := by
  have value : Method.fields.invoke? (.model { m with fields := [] })
      [.list (m.fields.map fun f => .named f.1 f.2)] = some (.model m) := by
    rw [Method.invoke?, mapM_named?]
    rfl
  unfold Source.fieldsCall
  split
  · rename_i hempty
    rw [List.isEmpty_iff.mp hempty] at value
    have none : YieldsAll functions [] [] := yieldsAll_nil (by decide)
    exact h.method none.vec.yieldsAll value
  · have indent : IsLayout "            " := by decide
    have close : IsLayout "        " := by decide
    have newline : IsLayout ['\n'] := by decide
    have entries : YieldsAll functions _ (m.fields.map fun f => .named f.1 f.2) :=
      yieldsAll_entryLines indent (fun f hf => yields_builder (hfields f hf) indent) close
    have call := h.method (entries.after_layout newline).vec.yieldsAll value
    have form : (".fields(vec![\n" : Text) ++ entryLines "            " m.fields ++ "        ])" =
        '.' :: (Method.fields.name ++ '(' ::
          ((("vec![" : Text) ++ (['\n'] ++ (entryLines "            " m.fields ++ "        ") ++
            [']'])) ++ [')'])) := by
      change _ = '.' :: (("fields" : Text) ++ _)
      simp
    rw [form]
    exact call

/-- The lines of a model have the model as their value. -/
theorem yields_model (m : Model) (hview : m.kind = .view ↔ m.viewQuery.isSome = true)
    (hfields : ∀ f ∈ m.fields, f.2.Written) :
    Yields functions
      (constructor m ++ "\n" ++ callLine (bareCall "schemaless" (!m.schemafull)) ++
        callLine (bareCall "drop" m.drop) ++ callLine (permissionsCall m.permissions) ++
        callLine (fieldsCall m.fields)) (.model m) := by
  have newline : IsLayout "\n" := by decide
  have start : Yields functions _ (.model { name := m.name, kind := m.kind
                                            viewQuery := m.viewQuery }) :=
    (yields_constructor m hview).layout newline
  have schemaless : Yields functions _ (.model { name := m.name, kind := m.kind
                                                 viewQuery := m.viewQuery
                                                 schemafull := m.schemafull }) :=
    start.callLine fun e h => h.bareCall (m := .schemaless) (!m.schemafull)
      (fun hp => by rw [show m.schemafull = false by simpa using hp]; rfl)
      (fun hp => by rw [show m.schemafull = true by simpa using hp])
  have drop : Yields functions _ (.model { name := m.name, kind := m.kind
                                           viewQuery := m.viewQuery
                                           schemafull := m.schemafull, drop := m.drop }) :=
    schemaless.callLine fun e h => h.bareCall (m := .drop) m.drop
      (fun hp => by rw [hp]; rfl) (fun hp => by rw [hp])
  have permissions : Yields functions _ (.model { m with fields := [] }) :=
    drop.callLine fun e h => h.permissionsCall (p := m.permissions) rfl fun hp => by
      cases m
      cases hp
      rfl
  exact permissions.callLine fun e h => h.fieldsCall hfields

/-! ## Functions -/

/-- The head of a function opens its body. -/
theorem read?_head {name : Text} (hname : ∀ c ∈ name, isIdentChar c = true) (hne : name ≠ [])
    {type : Text} (htype : type = "Model" ∨ type = "IndexDef" ∨ type = "Vec<Definition>") :
    (within functions []).read? ("pub fn " ++ name ++ "() -> " ++ type ++ " \x7b\n    ") =
      some (within functions [⟨.body name, [], .none⟩]) := by
  have word : ∀ c ∈ name, isWordChar c = true := fun c hc => by
    rw [isWordChar, hname c hc]
    rfl
  have keyword : (within functions []).read? ("pub fn " : Text) =
      some { within functions [] with heading := .keyword } := rfl
  have named : read? { within functions [] with heading := .keyword } (name ++ ['(']) =
      some { within functions [] with heading := .named name } := by
    rw [read?_word_mark rfl word hne (by decide)]
    rfl
  have rest : read? { within functions [] with heading := .named name }
      (") -> " ++ type ++ " \x7b\n    ") = some (within functions [⟨.body name, [], .none⟩]) := by
    rcases htype with rfl | rfl | rfl
    · rfl
    · rfl
    · rfl
  have form : ("pub fn " ++ name ++ "() -> " ++ type ++ " \x7b\n    " : Text) =
      "pub fn " ++ ((name ++ ['(']) ++ (") -> " ++ type ++ " \x7b\n    ")) := by simp
  rw [form, read?_append, keyword, Option.bind_some, read?_append, named, Option.bind_some, rest]

/-- A function has the value of its body. -/
theorem read?_function {name : Text} (hname : ∀ c ∈ name, isIdentChar c = true) (hne : name ≠ [])
    {type : Text} (htype : type = "Model" ∨ type = "IndexDef" ∨ type = "Vec<Definition>")
    (h : Yields functions e v) :
    (within functions []).read?
        ("pub fn " ++ name ++ "() -> " ++ type ++ " \x7b\n    " ++ e ++ "\x7d\n") =
      some (within ((name, v) :: functions) []) := by
  have closed : (within functions [⟨.body name, [], .value v⟩]).read? ("\x7d\n" : Text) =
      some (within ((name, v) :: functions) []) := rfl
  rw [read?_append, read?_append, read?_head hname hne htype, Option.bind_some, h, Option.bind_some,
    closed]

/-! ## Calls of functions of the source -/

theorem ofPath?_eq_none {p : Text} (hp : ∀ c ∈ p, isIdentChar c = true) :
    Function.ofPath? p = none := by
  have colon : ∀ f ∈ Function.all, ':' ∈ f.path := by decide
  unfold Function.ofPath?
  rw [List.find?_eq_none]
  intro f hf he
  have mem := colon f hf
  rw [eq_of_beq he] at mem
  exact absurd (hp _ mem) (by decide)

/-- A function of the source is called by its name. -/
theorem yields_functionCall {p : Text} (hp : ∀ c ∈ p, isIdentChar c = true) (hne : p ≠ [])
    (hv : functions.lookup p = some v) : Yields functions (p ++ ['(', ')']) v := by
  have none : YieldsAll functions [] [] := yieldsAll_nil (by decide)
  have word : ∀ c ∈ p, isWordChar c = true := fun c hc => by
    rw [isWordChar, hp c hc]
    rfl
  have value : call? functions p [] = some v := by
    rw [call?, ofPath?_eq_none hp]
    exact hv
  exact none.call word hne value

theorem Yields.borrowed (h : Yields functions e v) : Yields functions ('&' :: e) v := by
  intro opening args rest
  have borrow : (within functions (⟨opening, args, .none⟩ :: rest)).step? '&' =
      some (within functions (⟨opening, args, .none⟩ :: rest)) := by
    rw [step?_mark rfl (by decide)]
    rfl
  rw [read?_cons, borrow, Option.bind_some, h]

/-! ## Indexes -/

/-- The index of a function with its columns. -/
def indexColumns (i : Index) : Text :=
  "IndexDef::on(&model(), " ++ Text.quote i.name ++ ").fields([" ++
    Text.join ", " (i.columns.map Text.quote) ++ "])"

theorem indexColumns_eq (i : Index) :
    indexColumns i = Function.indexOn.path ++ '(' :: (("&model()" : Text) ++
      ',' :: ([' '] ++ Text.quote i.name) ++ [')']) ++
      '.' :: (Method.fields.name ++ '(' ::
        ('[' :: (Text.join ", " (i.columns.map Text.quote) ++ [']']) ++ [')'])) := by
  unfold indexColumns
  simp only [List.append_assoc, List.cons_append]
  rfl

theorem yields_owner {m : Model} (hm : functions.lookup ("model" : Text) = some (.model m)) :
    Yields functions "&model()" (.model m) := by
  have call := yields_functionCall (by decide) (by decide) hm
  have form : ("&model()" : Text) = '&' :: (("model" : Text) ++ ['(', ')']) := rfl
  rw [form]
  exact call.borrowed

/-- The body of the function of an index gives the index. -/
theorem yields_indexBody {m : Model} (hm : functions.lookup ("model" : Text) = some (.model m))
    {i : Index} (hcolumns : i.columns ≠ []) :
    Yields functions (indexColumns i ++ bareCall "unique" i.unique)
      (.index (Registration.indexOf m.name i)) := by
  have space : IsLayout [' '] := by decide
  have on := yields_function (f := .indexOn) (by decide)
    ((yields_owner hm).item.cons space (yields_quote i.name).yieldsAll) rfl
  have value : Method.fields.invoke? (.index { name := i.name, table := m.name })
      [.list (i.columns.map .text)] =
        some (.index { name := i.name, table := m.name, columns := i.columns }) := by
    obtain ⟨c, cs, he⟩ := List.exists_cons_of_ne_nil hcolumns
    rw [he, List.map_cons, Method.invoke?, ← List.map_cons, mapM_text?]
    rfl
  have columns := on.method (yieldsAll_quotes i.columns).list.yieldsAll value
  rw [← indexColumns_eq] at columns
  exact columns.bareCall (m := .unique) i.unique (fun hp => by rw [Registration.indexOf, hp]; rfl)
    (fun hp => by rw [Registration.indexOf, hp])

theorem indexFunction?_eq {i : Index} (h : i.isDetectionOnly = false) :
    indexFunction? i = some ("pub fn " ++ functionOf i.name ++ "() -> " ++ "IndexDef" ++
      " \x7b\n    " ++ (indexColumns i ++ bareCall "unique" i.unique ++ "\n") ++ "\x7d\n") := by
  unfold indexFunction?
  rw [h, if_neg (by decide)]
  unfold indexColumns
  simp only [List.append_assoc]
  rfl

theorem functionOf_ne_nil (index : Text) : functionOf index ≠ [] := by
  intro h
  have taken := isTaken_functionOf index
  rw [h] at taken
  exact absurd taken (by decide)

theorem functionOf_ne_model (index : Text) : functionOf index ≠ "model" := by
  intro h
  have taken := isTaken_functionOf index
  rw [h] at taken
  exact absurd taken (by decide)

/-- The value of a function that gives a model or an index. -/
def valueOf : Registration → Value
  | .model m => .model m
  | .index i => .index i

/-- The function of an index with what it registers. -/
def indexEntry (table : Text) (i : Index) : Text × Registration :=
  (functionOf i.name, .index (Registration.indexOf table i))

def entryValue (e : Text × Registration) : Text × Value := (e.1, valueOf e.2)

/-- The functions of the indexes are read one after the other. -/
theorem read?_indexFunctions {m : Model} {is : List Index}
    (h : ∀ i ∈ is, i.isDetectionOnly = false ∧ i.columns ≠ [])
    (hm : functions.lookup ("model" : Text) = some (.model m)) :
    (within functions []).read? ((is.filterMap indexFunction?).flatMap fun f => '\n' :: f) =
      some (within ((is.map fun i => entryValue (indexEntry m.name i)).reverse ++
        functions) []) := by
  induction is generalizing functions with
  | nil => rfl
  | cons i is ih =>
    have newline : IsLayout "\n" := by decide
    have blank : IsLayout ['\n'] := by decide
    have ident := List.all_eq_true.mp (all_isIdentChar_functionOf i.name)
    obtain ⟨managed, columns⟩ := h i List.mem_cons_self
    have body := (yields_indexBody hm columns).layout newline
    have one := read?_function ident (functionOf_ne_nil i.name) (.inr (.inl rfl)) body
    have still : List.lookup ("model" : Text) (entryValue (indexEntry m.name i) :: functions) =
        some (.model m) := by
      have other : (("model" : Text) == functionOf i.name) = false := by
        simpa using (functionOf_ne_model i.name).symm
      rw [entryValue, indexEntry, List.lookup_cons, other]
      exact hm
    rw [List.filterMap_cons, indexFunction?_eq managed, List.flatMap_cons,
      read?_append, ← List.singleton_append, read?_append, read?_layout rfl blank, Option.bind_some,
      one, Option.bind_some, List.map_cons, List.reverse_cons, List.append_assoc,
      List.singleton_append]
    exact ih (fun j hj => h j (List.mem_cons_of_mem i hj)) still

/-! ## The whole file -/

/-- The machine in a comment outside all functions. -/
def inComment : Machine := { mode := .comment }

/-- Whether the text stays on a line: it has no character that ends one. -/
def IsLine (t : Text) : Prop := ∀ c ∈ t, c ≠ '\n' ∧ c ≠ '\r'

instance (t : Text) : Decidable (IsLine t) :=
  inferInstanceAs (Decidable (∀ c ∈ t, c ≠ '\n' ∧ c ≠ '\r'))

theorem read?_comment {t : Text} (h : IsLine t) : inComment.read? t = some inComment := by
  induction t with
  | nil => rfl
  | cons c t ih =>
    obtain ⟨⟨hn, hr⟩, ht⟩ := List.forall_mem_cons.mp h
    have step : inComment.step? c = some inComment := by
      simp only [step?, inComment, if_neg hn, if_neg hr]
    rw [read?_cons, step, Option.bind_some, ih ht]

theorem read?_imports : (within [] []).read? imports = some (within [] []) := by
  have allow : (within [] []).read? ("#[allow(unused_imports)]\n" : Text) =
      some (within [] []) := rfl
  have opening : (within [] []).read? ("use schema_sync_core::model::\x7b" : Text) =
      some { within [] [] with heading := .imports } := rfl
  have first : read? { within [] [] with heading := .imports }
      ("Definition, Field, IndexDef, " : Text) =
        some { within [] [] with heading := .imports } := rfl
  have second : read? { within [] [] with heading := .imports }
      ("Model, PermissionKind, Permissions\x7d;\n" : Text) =
      some (within [] []) := rfl
  have form : imports = ("#[allow(unused_imports)]\n" : Text) ++
      (("use schema_sync_core::model::\x7b" : Text) ++ (("Definition, Field, IndexDef, " : Text) ++
        ("Model, PermissionKind, Permissions\x7d;\n" : Text))) := by decide +kernel
  rw [form, read?_append, allow, Option.bind_some, read?_append, opening, Option.bind_some,
    read?_append, first, Option.bind_some, second]

/-- A name on one line stays in the comment that names the table. -/
theorem read?_preamble {table : Text} (h : IsLine table) :
    read? {} (preamble table) = some (within [] []) := by
  have opening : read? {} ("//! Table \x60" : Text) = some inComment := rfl
  have named : inComment.read? (table ++ "\x60.") = some inComment :=
    read?_comment (List.forall_mem_append.mpr ⟨h, by decide⟩)
  have second : inComment.read? ("\n//!\n//! Generated by schema-sync." : Text) =
      some inComment := rfl
  have third : inComment.read? (" Hand edits are kept when the file is merged." : Text) =
      some inComment := read?_comment (by decide)
  have last : inComment.read? ("\n\n" : Text) = some (within [] []) := rfl
  have newline : (within [] []).read? ("\n" : Text) = some (within [] []) := rfl
  have form : preamble table = ("//! Table \x60" : Text) ++ ((table ++ "\x60.") ++
      (("\n//!\n//! Generated by schema-sync." : Text) ++
        ((" Hand edits are kept when the file is merged." : Text) ++
          (("\n\n" : Text) ++ (imports ++ ("\n" : Text)))))) := by
    unfold preamble
    simp only [List.append_assoc]
    rfl
  rw [form, read?_append, opening, Option.bind_some, read?_append, named, Option.bind_some,
    read?_append, second, Option.bind_some, read?_append, third, Option.bind_some, read?_append,
    last, Option.bind_some, read?_append, read?_imports, Option.bind_some, newline]

theorem lookup_of_mem {l : List (Text × Value)} (hn : (l.map Prod.fst).Nodup) {p : Text × Value}
    (h : p ∈ l) : l.lookup p.1 = some p.2 := by
  induction l with
  | nil => cases h
  | cons q l ih =>
    rw [List.map_cons, List.nodup_cons] at hn
    rw [List.lookup_cons]
    rcases List.mem_cons.mp h with rfl | hm
    · simp
    · have other : (p.1 == q.1) = false := by
        simpa using fun he : p.1 = q.1 => hn.1 (he ▸ List.mem_map_of_mem hm)
      rw [other]
      exact ih hn.2 hm

/-- The functions of a generated source, in the order of the list. -/
def entriesOf (t : Table) : List (Text × Registration) :=
  ("model", .model (Model.ofTable t)) :: t.indexes.map (indexEntry t.name)

theorem read?_modelFunction {m : Model} (hview : m.kind = .view ↔ m.viewQuery.isSome = true)
    (hfields : ∀ f ∈ m.fields, f.2.Written) :
    (within functions []).read? (modelFunction m) =
      some (within (("model", .model m) :: functions) []) := by
  have body : Yields functions _ (.model m) := yields_model m hview hfields
  have ident : ∀ c ∈ ("model" : Text), isIdentChar c = true := by decide
  have one := read?_function ident (by decide) (.inl rfl) body
  have form : modelFunction m =
      ("pub fn " ++ "model" ++ "() -> " ++ "Model" ++ " \x7b\n    " : Text) ++
      (constructor m ++ "\n" ++ callLine (bareCall "schemaless" (!m.schemafull)) ++
        callLine (bareCall "drop" m.drop) ++ callLine (permissionsCall m.permissions) ++
        callLine (fieldsCall m.fields)) ++ "\x7d\n" := by
    unfold modelFunction
    simp only [List.append_assoc]
    rfl
  rw [form]
  exact one

theorem yields_definition {p : Text} {r : Registration} (hp : ∀ c ∈ p, isIdentChar c = true)
    (hne : p ≠ []) (hv : functions.lookup p = some (valueOf r)) :
    Yields functions (definition p) (.definition r) := by
  have none : YieldsAll functions [] [] := yieldsAll_nil (by decide)
  have value : Method.definition.invoke? (valueOf r) [] = some (.definition r) := by
    cases r <;> rfl
  have call := (yields_functionCall hp hne hv).method none value
  have form : definition p = p ++ ['(', ')'] ++ '.' ::
      (Method.definition.name ++ '(' :: ([] ++ [')'])) := by
    unfold definition
    simp only [List.append_assoc]
    rfl
  rw [form]
  exact call

theorem nodup_entriesOf {t : Table} (hi : (t.indexes.map fun i => functionOf i.name).Nodup) :
    ((entriesOf t).map Prod.fst).Nodup := by
  have names : (entriesOf t).map Prod.fst =
      ("model" : Text) :: t.indexes.map fun i => functionOf i.name := by
    simp [entriesOf, indexEntry]
  rw [names, List.nodup_cons]
  refine ⟨fun hm => ?_, hi⟩
  obtain ⟨i, -, he⟩ := List.mem_map.mp hm
  exact functionOf_ne_model i.name he

theorem lookup_entriesOf {t : Table} (hi : (t.indexes.map fun i => functionOf i.name).Nodup)
    {e : Text × Registration} (he : e ∈ entriesOf t) :
    ((entriesOf t).map entryValue).reverse.lookup e.1 = some (valueOf e.2) := by
  refine lookup_of_mem (p := entryValue e) ?_ (List.mem_reverse.mpr (List.mem_map_of_mem he))
  rw [List.map_reverse, List.nodup_reverse, List.map_map]
  exact nodup_entriesOf hi

theorem isIdentChar_of_mem_entriesOf {t : Table} {e : Text × Registration} (he : e ∈ entriesOf t) :
    (∀ c ∈ e.1, isIdentChar c = true) ∧ e.1 ≠ [] := by
  rcases List.mem_cons.mp he with rfl | he
  · have ident : ∀ c ∈ ("model" : Text), isIdentChar c = true := by decide
    exact ⟨ident, by simp⟩
  · obtain ⟨i, -, rfl⟩ := List.mem_map.mp he
    exact ⟨List.all_eq_true.mp (all_isIdentChar_functionOf i.name), functionOf_ne_nil i.name⟩

/-- The list of definitions has what the functions in it give. -/
theorem read?_aggregate {t : Table} (hi : (t.indexes.map fun i => functionOf i.name).Nodup) :
    (within ((entriesOf t).map entryValue).reverse []).read? (aggregateFunction t.indexes) =
      some (within ((aggregate, .list ((entriesOf t).map fun e => .definition e.2)) ::
        ((entriesOf t).map entryValue).reverse) []) := by
  have newline : IsLayout "\n" := by decide
  have items : YieldsAll ((entriesOf t).map entryValue).reverse
      (Text.join ", " ((entriesOf t).map fun e => definition e.1))
      ((entriesOf t).map fun e => .definition e.2) :=
    yieldsAll_join fun e he =>
      yields_definition (isIdentChar_of_mem_entriesOf he).1 (isIdentChar_of_mem_entriesOf he).2
        (lookup_entriesOf hi he)
  have names : (entriesOf t).map (fun e => definition e.1) =
      definition "model" :: t.indexes.map fun i => definition (functionOf i.name) := by
    simp [entriesOf, indexEntry]
  have ident : ∀ c ∈ aggregate, isIdentChar c = true := by decide
  have one := read?_function ident (by decide) (.inr (.inr rfl)) (items.vec.layout newline)
  have form : aggregateFunction t.indexes = "\n" ++ (("pub fn " ++ aggregate ++ "() -> " ++
      "Vec<Definition>" ++ " \x7b\n    " : Text) ++ ((("vec![" : Text) ++ (Text.join ", "
        ((entriesOf t).map fun e => definition e.1) ++ [']'])) ++ "\n") ++ "\x7d\n") := by
    rw [names]
    unfold aggregateFunction
    simp only [List.append_assoc]
    rfl
  rw [form, read?_append, read?_layout rfl newline, Option.bind_some, one]

theorem mapM_definition? (es : List (Text × Registration)) :
    (es.map fun e => Value.definition e.2).mapM Value.definition? = some (es.map Prod.snd) := by
  induction es with
  | nil => rfl
  | cons e es ih => simp [ih, Value.definition?]

theorem map_snd_entriesOf (t : Table) : (entriesOf t).map Prod.snd = Registration.ofTable t := by
  simp [entriesOf, indexEntry, Registration.ofTable]

/-- The source of a table is read to its end, and lists the model of the table and its indexes. -/
theorem definitions?_file {t : Table} (hname : IsLine t.name)
    (hview : t.kind = .view ↔ t.viewQuery.isSome = true)
    (hmanaged : ∀ i ∈ t.indexes, i.isDetectionOnly = false)
    (hcolumns : ∀ i ∈ t.indexes, i.columns ≠ [])
    (hi : (t.indexes.map fun i => functionOf i.name).Nodup) :
    definitions? (file t) = some (Registration.ofTable t) := by
  have managed : t.indexes.filter (!·.isDetectionOnly) = t.indexes :=
    List.filter_eq_self.mpr fun i hm => by rw [hmanaged i hm]; rfl
  have kinds : (Model.ofTable t).kind = .view ↔ (Model.ofTable t).viewQuery.isSome = true := by
    rw [Model.kind_ofTable hview, Model.viewQuery_ofTable hview]
    exact hview
  have written : ∀ f ∈ (Model.ofTable t).fields, f.2.Written := by
    intro f hf
    obtain ⟨g, hg, rfl⟩ := List.mem_map.mp hf
    exact Declaration.written_ofField g (List.mem_filter.mp hg).1
  have model : List.lookup ("model" : Text) [("model", Value.model (Model.ofTable t))] =
      some (.model (Model.ofTable t)) := by simp
  have indexes := read?_indexFunctions (fun i hm => ⟨hmanaged i hm, hcolumns i hm⟩) model
  have all : (t.indexes.map fun i => entryValue (indexEntry (Model.ofTable t).name i)).reverse ++
      [(("model" : Text), Value.model (Model.ofTable t))] =
        ((entriesOf t).map entryValue).reverse := by
    simp [entriesOf, entryValue, valueOf, Model.ofTable]
  have functions : read? {} (file t) = some (within ((aggregate,
      .list ((entriesOf t).map fun e => .definition e.2)) ::
        ((entriesOf t).map entryValue).reverse) []) := by
    unfold file
    rw [managed, read?_append, read?_append, read?_append, read?_preamble hname, Option.bind_some,
      read?_modelFunction kinds written, Option.bind_some, indexes, Option.bind_some, all,
      read?_aggregate hi]
  unfold definitions?
  rw [functions, Option.bind_eq_bind, Option.bind_some, ← map_snd_entriesOf]
  have list : ((aggregate, Value.list ((entriesOf t).map fun e => .definition e.2)) ::
      ((entriesOf t).map entryValue).reverse).lookup aggregate =
        some (.list ((entriesOf t).map fun e => .definition e.2)) := by simp
  simp only [within, list]
  exact mapM_definition? _

end Source

end SchemaDrift
