import SchemaDrift.Proofs.Reading.Snapshot
import SchemaDrift.Proofs.Statement.Squeezed

namespace SchemaDrift

/-!
# Definitions up to runs of blanks

What a squeezed statement defines is what the statement defines, with types and expressions
squeezed. The one exception is the flags of a table: the query of a view is looked for as it is
written, and it could stand already in front of its own place.
-/

open Text (squeeze trimStart squeeze_cons_of_blank squeeze_cons_of_not_blank
  trimStart_cons_of_blank trimStart_cons_of_not_blank isBlank_space)

/-! ## Squeezed definitions -/

/-- The field with its type and its expressions squeezed. -/
def Field.squeeze (f : Field) : Field :=
  { f with
    type := Text.squeeze f.type
    default := f.default.map Text.squeeze
    value := f.value.map Text.squeeze
    assertion := f.assertion.map Text.squeeze
    permissions := f.permissions.map Text.squeeze }

/-- The index with its columns squeezed. -/
def Index.squeeze (i : Index) : Index := { i with columns := i.columns.map Text.squeeze }

/-- The event with its condition and its action squeezed. -/
def Event.squeeze (e : Event) : Event :=
  { e with condition := Text.squeeze e.condition, action := Text.squeeze e.action }

/-- The member with its texts squeezed. -/
def Member.squeeze : Member → Member
  | field f => field f.squeeze
  | index i => index i.squeeze
  | event e => event e.squeeze

/-- The table with its query, its expressions and its members squeezed. -/
def Table.squeeze (t : Table) : Table :=
  { t with
    viewQuery := t.viewQuery.map Text.squeeze
    permissions := t.permissions.map Text.squeeze
    fields := t.fields.map Field.squeeze
    indexes := t.indexes.map Index.squeeze
    events := t.events.map Event.squeeze }

/-- The schema with its tables squeezed. -/
def Schema.squeeze (s : Schema) : Schema := ⟨s.tables.map Table.squeeze⟩

/-! ## Schemas -/

theorem map_putBy_comm {α : Type} {f : α → α} (same : α → Bool) (h : ∀ a, same (f a) = same a)
    (a : α) (l : List α) : (putBy same a l).map f = putBy same (f a) (l.map f) := by
  induction l with
  | nil => rfl
  | cons b l ih =>
    rw [putBy, List.map_cons, putBy, h]
    split
    · rfl
    · rw [List.map_cons, ih]

theorem map_modifyBy_comm {α : Type} {f g g' : α → α} (same : α → Bool)
    (h : ∀ a, same (f a) = same a) (hg : ∀ a, f (g a) = g' (f a)) (l : List α) :
    (modifyBy same g l).map f = modifyBy same g' (l.map f) := by
  induction l with
  | nil => rfl
  | cons b l ih =>
    rw [modifyBy, List.map_cons, modifyBy, h]
    split
    · rw [List.map_cons, hg]
    · rw [List.map_cons, ih]

theorem Table.squeeze_addTo (t : Table) (m : Member) :
    (m.addTo t).squeeze = m.squeeze.addTo t.squeeze := by
  cases m with
  | field f =>
    have fields := map_putBy_comm (f := Field.squeeze) (·.name == f.name) (fun _ => rfl) f t.fields
    simp only [Member.addTo, Member.squeeze, addField, Table.squeeze, fields]
    rfl
  | index i =>
    have indexes :=
      map_putBy_comm (f := Index.squeeze) (·.name == i.name) (fun _ => rfl) i t.indexes
    simp only [Member.addTo, Member.squeeze, addIndex, Table.squeeze, indexes]
    rfl
  | event e => simp [Member.addTo, Member.squeeze, addEvent, Table.squeeze]

namespace Schema

theorem squeeze_addTable (s : Schema) (t : Table) :
    (s.addTable t).squeeze = s.squeeze.addTable t.squeeze :=
  congrArg mk (map_putBy_comm (f := Table.squeeze) (·.name == t.name) (fun _ => rfl) t s.tables)

theorem squeeze_addMember (s : Schema) (m : Text × Member) :
    (s.addMember m).squeeze = s.squeeze.addMember (Prod.map id Member.squeeze m) :=
  congrArg mk (map_modifyBy_comm (f := Table.squeeze) (·.name == m.1) (fun _ => rfl)
    (fun t => t.squeeze_addTo m.2) s.tables)

theorem squeeze_ofTables (ts : List Table) :
    (ofTables ts).squeeze = ofTables (ts.map Table.squeeze) := by
  have fold (ts : List Table) (s : Schema) : (ts.foldl addTable s).squeeze =
      (ts.map Table.squeeze).foldl addTable s.squeeze := by
    induction ts generalizing s with
    | nil => rfl
    | cons t ts ih => rw [List.foldl_cons, ih, squeeze_addTable, List.map_cons, List.foldl_cons]
  exact fold ts {}

theorem squeeze_foldl_addMember (ms : List (Text × Member)) (s : Schema) :
    (ms.foldl addMember s).squeeze =
      (ms.map (Prod.map id Member.squeeze)).foldl addMember s.squeeze := by
  induction ms generalizing s with
  | nil => rfl
  | cons m ms ih => rw [List.foldl_cons, ih, squeeze_addMember, List.map_cons, List.foldl_cons]

theorem hasTableOf_squeeze (s : Schema) (m : Text × Member) :
    s.squeeze.hasTableOf (Prod.map id Member.squeeze m) = s.hasTableOf m := by
  rw [hasTableOf, table?, squeeze, List.find?_map, Option.isSome_map]
  rfl

end Schema

/-- A schema depends on its statements through the tables and the members that they define. -/
theorem Script.squeeze_schemaOf_congr {ss ss' : List Text}
    (htables : (tablesIn ss).map Table.squeeze = (tablesIn ss').map Table.squeeze)
    (hmembers : (membersIn ss).map (Prod.map id Member.squeeze) =
      (membersIn ss').map (Prod.map id Member.squeeze)) :
    (schemaOf ss).squeeze = (schemaOf ss').squeeze := by
  have eq (ss : List Text) : (schemaOf ss).squeeze =
      (((membersIn ss).map (Prod.map id Member.squeeze)).filter
        (Schema.ofTables ((tablesIn ss).map Table.squeeze)).hasTableOf).foldl Schema.addMember
          (Schema.ofTables ((tablesIn ss).map Table.squeeze)) := by
    rw [schemaOf, Schema.squeeze_foldl_addMember, ← Schema.squeeze_ofTables, List.filter_map]
    congr 2
    exact List.filter_congr fun m _ => (Schema.hasTableOf_squeeze _ m).symm
  rw [eq, eq, htables, hmembers]

/-! ## Words side by side -/

namespace Statement

variable {first second : Text}

theorem behind?_of_blank (h₁ : Keyword.IsSolid first) {c : Char} (hc : Text.isBlank c = true)
    (cs : Text) : behind? first second (c :: cs) = none := by
  obtain ⟨d, ds, rfl⟩ := List.exists_cons_of_ne_nil h₁.1
  have other : d ≠ c := by
    rintro rfl
    rw [h₁.isBlank_eq_false List.mem_cons_self] at hc
    cases hc
  rw [behind?, Text.stripStart, if_neg other]
  rfl

theorem behind?_squeeze (h₁ : Keyword.IsSolid first) (h₂ : Keyword.IsSolid second) (t : Text) :
    behind? first second (squeeze t) = (behind? first second t).map squeeze := by
  rw [behind?, behind?, Text.stripStart_squeeze fun c hc => h₁.isBlank_eq_false hc]
  cases Text.stripStart first t with
  | none => rfl
  | some r =>
    rw [Option.map_some, Option.bind_some, Option.bind_some, Text.skipBlanks?_squeeze]
    cases Text.skipBlanks? r with
    | none => rfl
    | some rest =>
      have next : (Text.stripStart second (squeeze rest)).any Text.atWordEnd =
          (Text.stripStart second rest).any Text.atWordEnd := by
        rw [Text.stripStart_squeeze fun c hc => h₂.isBlank_eq_false hc, Option.any_map]
        congr 1
        funext rest
        exact Text.atWordEnd_squeeze rest
      simp only [Option.map_some, Option.filter_some, next]
      split <;> rfl

theorem pair?_of_not_word {c : Char} (hc : Text.isWord c = false) (t : Text) :
    pair? first second (some c) t = pair? first second none t := by
  cases t with
  | nil => rfl
  | cons d ds => simp [pair?, hc]

theorem pair?_cons_of_blank (h₁ : Keyword.IsSolid first) {c : Char} (hc : Text.isBlank c = true)
    (before : Option Char) (cs : Text) :
    pair? first second before (c :: cs) = pair? first second none cs := by
  rw [pair?, behind?_of_blank h₁ hc, ite_self, Option.none_or,
    pair?_of_not_word (Text.isWord_of_isBlank hc)]

theorem pair?_trimStart (h₁ : Keyword.IsSolid first) (t : Text) :
    pair? first second none (trimStart t) = pair? first second none t := by
  induction t with
  | nil => rfl
  | cons c cs ih =>
    cases hc : Text.isBlank c with
    | true => rw [trimStart_cons_of_blank _ hc, ih, pair?_cons_of_blank h₁ hc]
    | false => rw [trimStart_cons_of_not_blank _ hc]

theorem pair?_squeeze (h₁ : Keyword.IsSolid first) (h₂ : Keyword.IsSolid second)
    (before : Option Char) (t : Text) :
    pair? first second before (squeeze t) = (pair? first second before t).map squeeze := by
  induction t generalizing before with
  | nil => rfl
  | cons c cs ih =>
    cases hc : Text.isBlank c with
    | true =>
      rw [squeeze_cons_of_blank hc, pair?_cons_of_blank h₁ isBlank_space, pair?_trimStart h₁, ih,
        pair?_cons_of_blank h₁ hc]
    | false =>
      have here := behind?_squeeze h₁ h₂ (c :: cs)
      rw [squeeze_cons_of_not_blank hc] at here ⊢
      rw [pair?, pair?, ih, here, Option.map_or]
      split <;> rfl

theorem isSuffix_of_pair? {before : Option Char} {t rest : Text}
    (h : pair? first second before t = some rest) : rest <:+ t := by
  induction t generalizing before with
  | nil => cases h
  | cons c cs ih =>
    rw [pair?, Option.or_eq_some_iff] at h
    rcases h with h | ⟨-, h⟩
    · split at h
      · cases h
      · obtain ⟨h, -⟩ := Option.filter_eq_some_iff.mp h
        obtain ⟨r, hr, hskip⟩ := Option.bind_eq_some_iff.mp h
        rw [Text.stripStart_eq_some_iff.mp hr]
        refine List.IsSuffix.trans ?_ (List.suffix_append first r)
        cases r with
        | nil => cases hskip
        | cons d ds =>
          rw [Text.skipBlanks?] at hskip
          split at hskip
          · cases hskip
            exact (List.dropWhile_suffix Text.isBlank).trans (List.suffix_cons d ds)
          · cases hskip
    · exact (ih h).trans (List.suffix_cons c cs)

theorem isPrefix_of_pair? {before : Option Char} {t rest : Text}
    (h : pair? first second before t = some rest) : second <+: rest := by
  induction t generalizing before with
  | nil => cases h
  | cons c cs ih =>
    rw [pair?, Option.or_eq_some_iff] at h
    rcases h with h | ⟨-, h⟩
    · split at h
      · cases h
      · obtain ⟨-, h⟩ := Option.filter_eq_some_iff.mp h
        cases hr : Text.stripStart second rest with
        | none =>
          rw [hr] at h
          cases h
        | some r => exact ⟨r, (Text.stripStart_eq_some_iff.mp hr).symm⟩
    · exact ih h

/-! ## Tables -/

/-- What stands before the query of a view, or the whole text without a query. -/
def beforeQuery (body : Text) : Text :=
  body.take (body.length - ((query? none body).getD []).length)

/-- Whether the query of a view, if there is one, stands nowhere before its own place. -/
def QueryFirst (statement : Text) : Prop :=
  ∀ head ∈ Head.table? statement, flags head.2 (viewQuery? head.2) = beforeQuery head.2

instance (statement : Text) : Decidable (QueryFirst statement) :=
  inferInstanceAs (Decidable (∀ head ∈ Head.table? statement,
    flags head.2 (viewQuery? head.2) = beforeQuery head.2))

theorem beforeQuery_append (body : Text) :
    beforeQuery body ++ (query? none body).getD [] = body := by
  have suffix : (query? none body).getD [] <:+ body := by
    cases h : query? none body with
    | none => exact List.nil_suffix
    | some q => exact isSuffix_of_pair? (query?_eq_pair? none body ▸ h)
  rw [beforeQuery]
  exact List.suffix_iff_eq_append.mp suffix

theorem query?_squeeze (body : Text) :
    query? none (squeeze body) = (query? none body).map squeeze := by
  rw [query?_eq_pair?, pair?_squeeze (by decide) (by decide), query?_eq_pair?]

theorem head?_of_query? {body q : Text} (h : query? none body = some q) :
    ∀ c ∈ q.head?, Text.isBlank c = false := by
  obtain ⟨r, rfl⟩ := isPrefix_of_pair? (query?_eq_pair? none body ▸ h)
  rintro c ⟨⟩
  decide

theorem beforeQuery_squeeze (body : Text) :
    beforeQuery (squeeze body) = squeeze (beforeQuery body) := by
  have solid : ∀ c ∈ ((query? none body).getD []).head?, Text.isBlank c = false := by
    cases h : query? none body with
    | none => simp
    | some q => exact head?_of_query? h
  have whole := beforeQuery_append (squeeze body)
  have query : (query? none (squeeze body)).getD [] = squeeze ((query? none body).getD []) := by
    rw [query?_squeeze]
    cases query? none body <;> rfl
  have parts : squeeze body =
      squeeze (beforeQuery body) ++ squeeze ((query? none body).getD []) := by
    rw [← Text.squeeze_append _ solid, beforeQuery_append]
  rw [query] at whole
  exact List.append_cancel_right (whole.trans parts)

theorem hasRelation_squeeze (body : Text) :
    hasRelation none (squeeze body) = hasRelation none body := by
  rw [hasRelation_eq_pair?, pair?_squeeze (by decide) (by decide), Option.isSome_map,
    hasRelation_eq_pair?]

theorem viewQuery?_squeeze (body : Text) :
    viewQuery? (squeeze body) = (viewQuery? body).map squeeze := by
  have words : ∀ k ∈ (["PERMISSIONS", "COMMENT"] : List Text), Keyword.IsSolid k := by decide
  rw [viewQuery?, query?_squeeze, viewQuery?, Option.map_map, Option.map_map]
  congr 1
  funext q
  simp only [Function.comp_apply, Keyword.upTo_squeeze words, Clause.clean_squeeze]

/-- Two bodies that are the same up to runs of blanks make the same table up to runs of blanks, if
the flags are what stands before the query in both. -/
theorem squeeze_tableOf_congr {name a b : Text} (h : squeeze a = squeeze b)
    (ha : flags a (viewQuery? a) = beforeQuery a) (hb : flags b (viewQuery? b) = beforeQuery b) :
    (tableOf name a).squeeze = (tableOf name b).squeeze := by
  have occurs {keyword : Text} (hk : Keyword.IsSolid keyword) :
      Keyword.occurs keyword (beforeQuery a) = Keyword.occurs keyword (beforeQuery b) := by
    rw [← Keyword.occurs_squeeze hk, ← beforeQuery_squeeze, h, beforeQuery_squeeze,
      Keyword.occurs_squeeze hk]
  have query : (viewQuery? a).map squeeze = (viewQuery? b).map squeeze := by
    rw [← viewQuery?_squeeze, h, viewQuery?_squeeze]
  have view : (viewQuery? a).isSome = (viewQuery? b).isSome := by
    rw [← Option.isSome_map, query, Option.isSome_map]
  have relation : hasRelation none a = hasRelation none b := by
    rw [← hasRelation_squeeze, h, hasRelation_squeeze]
  have permissions : (Clause.permissions a).map squeeze = (Clause.permissions b).map squeeze := by
    rw [← Clause.permissions_squeeze, h, Clause.permissions_squeeze]
  simp only [Table.squeeze, tableOf, ha, hb, occurs (by decide : Keyword.IsSolid "DROP"),
    occurs (by decide : Keyword.IsSolid "SCHEMALESS"), query, view, relation, permissions]

/-! ## Members -/

theorem field_squeeze (head : Head.Owned) :
    field { head with body := squeeze head.body } = (field head).squeeze := by
  have solid := isSolid_fieldClauses
  have body (k : Text) (hk : Keyword.IsSolid k) : Clause.body? k fieldClauses (squeeze head.body) =
      (Clause.body? k fieldClauses head.body).map squeeze := Clause.body?_squeeze hk solid _
  have any (type : Option Text) : (type.map squeeze).getD "any" = squeeze (type.getD "any") := by
    cases type <;> rfl
  simp only [field, Field.squeeze, body _ (by decide : Keyword.IsSolid "TYPE"),
    body _ (by decide : Keyword.IsSolid "DEFAULT"), body _ (by decide : Keyword.IsSolid "VALUE"),
    body _ (by decide : Keyword.IsSolid "ASSERT"), Clause.permissions_squeeze,
    Keyword.occurs_squeeze (by decide : Keyword.IsSolid "FLEXIBLE"),
    Keyword.occurs_squeeze (by decide : Keyword.IsSolid "READONLY"), any]

theorem columns_squeeze (list : Text) : columns (squeeze list) = (columns list).map squeeze := by
  rw [columns, Text.splitOn_squeeze rfl, columns, List.map_map]
  generalize Text.splitOn ',' list = parts
  induction parts with
  | nil => rfl
  | cons p ps ih =>
    simp only [List.map_cons, Function.comp_apply, Text.trim_squeeze, List.filter_cons,
      Text.isEmpty_squeeze, ih]
    split <;> rfl

theorem index_squeeze (statement statement' : Text) (head : Head.Owned) :
    (index statement' { head with body := squeeze head.body }).toOption =
      (index statement head).toOption.map Index.squeeze := by
  have solid := isSolid_indexClauses
  have body (k : Text) (hk : Keyword.IsSolid k) : Clause.body? k indexClauses (squeeze head.body) =
      (Clause.body? k indexClauses head.body).map squeeze := Clause.body?_squeeze hk solid _
  simp only [index, body _ (by decide : Keyword.IsSolid "FIELDS"),
    body _ (by decide : Keyword.IsSolid "COLUMNS"), ← Option.map_or]
  cases (Clause.body? "FIELDS" indexClauses head.body).or
      (Clause.body? "COLUMNS" indexClauses head.body) with
  | none => rfl
  | some list =>
    simp only [Option.map_some, columns_squeeze,
      Keyword.occurs_squeeze (by decide : Keyword.IsSolid "UNIQUE"),
      Keyword.occurs_squeeze (by decide : Keyword.IsSolid "SEARCH"),
      Keyword.occurs_squeeze (by decide : Keyword.IsSolid "FULLTEXT"),
      Keyword.occurs_squeeze (by decide : Keyword.IsSolid "HNSW"),
      Keyword.occurs_squeeze (by decide : Keyword.IsSolid "MTREE")]
    rfl

theorem event_squeeze (statement statement' : Text) (head : Head.Owned) :
    (event statement' { head with body := squeeze head.body }).toOption =
      (event statement head).toOption.map Event.squeeze := by
  have action : Clause.body? "THEN" ["COMMENT"] (squeeze head.body) =
      (Clause.body? "THEN" ["COMMENT"] head.body).map squeeze :=
    Clause.body?_squeeze (by decide) (by decide) _
  have condition : Clause.body? "WHEN" ["THEN"] (squeeze head.body) =
      (Clause.body? "WHEN" ["THEN"] head.body).map squeeze :=
    Clause.body?_squeeze (by decide) (by decide) _
  have always (condition : Option Text) :
      (condition.map squeeze).getD "true" = squeeze (condition.getD "true") := by
    cases condition <;> rfl
  simp only [event, action, condition]
  cases Clause.body? "THEN" ["COMMENT"] head.body with
  | none => rfl
  | some action =>
    simp only [Option.map_some, always]
    rfl

end Statement

/-! ## Heads -/

namespace Head

/-- The head with the rest of the statement squeezed. -/
def Owned.squeeze (head : Owned) : Owned := { head with body := Text.squeeze head.body }

section Readers

variable {β : Type} {g : β → β} {read : Text → Option β}

/-- A reading of squeezed texts can go on behind one. -/
theorem bind_squeeze (h : ∀ t, read (squeeze t) = (read t).map g) (rest : Option Text) :
    (rest.map squeeze).bind read = (rest.bind read).map g := by
  cases rest with
  | none => rfl
  | some t => exact h t

theorem word?_squeeze {k : Text} (hk : IsName k) (t : Text) :
    word? k (squeeze t) = (word? k t).map squeeze := by
  rw [word?, Text.stripKeyword_squeeze hk.2, bind_squeeze Text.skipBlanks?_squeeze, word?]

theorem guard?_squeeze (t : Text) : guard? (squeeze t) = (guard? t).map squeeze := by
  rw [guard?, word?_squeeze (by decide), word?_squeeze (by decide),
    bind_squeeze (word?_squeeze (by decide)), bind_squeeze (word?_squeeze (by decide)),
    ← Option.map_or, guard?]

theorem guarded_squeeze (h : ∀ t, read (squeeze t) = (read t).map g) (t : Text) :
    guarded read (squeeze t) = (guarded read t).map g := by
  rw [guarded, guard?_squeeze, bind_squeeze h, h, ← Option.map_or, guarded]

theorem define?_bind_squeeze {noun : Text} (hn : IsName noun)
    (h : ∀ t, read (squeeze t) = (read t).map g) (s : Text) :
    (define? noun (squeeze s)).bind read = ((define? noun s).bind read).map g := by
  rw [define?, Text.trimStart_squeeze, word?_squeeze (by decide), bind_squeeze (word?_squeeze hn),
    bind_squeeze h, define?]

end Readers

theorem keepsFront_squeeze : KeepsFront squeeze where
  stripStart _ _ hk := Text.stripStart_squeeze hk
  takeName? := Text.takeName?_squeeze

theorem target?_squeeze (t : Text) :
    target? (squeeze t) = (target? t).map (Prod.map id squeeze) := by
  have table (t : Text) : ((word? "table" (squeeze t)).bind name?).or (name? (squeeze t)) =
      (((word? "table" t).bind name?).or (name? t)).map (Prod.map id squeeze) := by
    rw [word?_squeeze (by decide), bind_squeeze keepsFront_squeeze.name?, keepsFront_squeeze.name?,
      ← Option.map_or]
  have on (t : Text) : ((word? "on" (squeeze t)).bind fun t =>
      ((word? "table" t).bind name?).or (name? t)) = ((word? "on" t).bind fun t =>
        ((word? "table" t).bind name?).or (name? t)).map (Prod.map id squeeze) := by
    rw [word?_squeeze (by decide), bind_squeeze table]
  rw [target?_eq, Text.skipBlanks?_squeeze, bind_squeeze on, target?_eq]

theorem owned_squeeze {first : Text → Option (Text × Text)}
    (h : ∀ t, first (squeeze t) = (first t).map (Prod.map id squeeze)) (t : Text) :
    owned first (squeeze t) = (owned first t).map Owned.squeeze := by
  rw [owned_eq, h, owned_eq]
  cases first t with
  | none => rfl
  | some r =>
    simp only [Option.map_some, Option.bind_some, Prod.map_snd, target?_squeeze, Option.map_map]
    rfl

theorem table?_squeeze (s : Text) : table? (squeeze s) = (table? s).map (Prod.map id squeeze) :=
  define?_bind_squeeze (by decide) (guarded_squeeze keepsFront_squeeze.name?) s

theorem field?_squeeze (s : Text) : field? (squeeze s) = (field? s).map Owned.squeeze :=
  define?_bind_squeeze (by decide) (guarded_squeeze (owned_squeeze keepsFront_squeeze.path?)) s

theorem index?_squeeze (s : Text) : index? (squeeze s) = (index? s).map Owned.squeeze :=
  define?_bind_squeeze (by decide) (guarded_squeeze (owned_squeeze keepsFront_squeeze.name?)) s

theorem event?_squeeze (s : Text) : event? (squeeze s) = (event? s).map Owned.squeeze :=
  define?_bind_squeeze (by decide) (guarded_squeeze (owned_squeeze keepsFront_squeeze.name?)) s

theorem noun?_squeeze (s : Text) : noun? (squeeze s) = (noun? s).map (Prod.map id squeeze) := by
  have solid (c : Char) (h : Text.isLetter c = true) :=
    isBlank_of_isNameChar (isNameChar_of_isLetter h)
  have letters (t : Text) : (if (squeeze t).takeWhile Text.isLetter = [] then none
      else some ((squeeze t).takeWhile Text.isLetter, (squeeze t).dropWhile Text.isLetter)) =
      (if t.takeWhile Text.isLetter = [] then none
      else some (t.takeWhile Text.isLetter, t.dropWhile Text.isLetter)).map
        (Prod.map id squeeze) := by
    rw [Text.takeWhile_squeeze solid, Text.dropWhile_squeeze solid]
    split <;> rfl
  rw [noun?_eq, Text.trimStart_squeeze, word?_squeeze (by decide), bind_squeeze letters, noun?_eq]

end Head

/-! ## Statements -/

namespace Statement

variable {s s' : Text}

theorem hasNoun_squeeze (noun : Noun) (s : Text) : HasNoun noun (squeeze s) ↔ HasNoun noun s := by
  rw [HasNoun, HasNoun, Head.noun?_squeeze]
  cases Head.noun? s <;> simp

theorem squeeze_table?_congr (h : squeeze s = squeeze s') (hs : QueryFirst s)
    (hs' : QueryFirst s') : (table? s).map Table.squeeze = (table? s').map Table.squeeze := by
  have eq (s : Text) : table? s = (Head.table? s).map fun head => tableOf head.1 head.2 := by
    rw [table?, readTable]
    cases Head.table? s <;> rfl
  have heads : (Head.table? s).map (Prod.map id squeeze) =
      (Head.table? s').map (Prod.map id squeeze) := by
    rw [← Head.table?_squeeze, h, Head.table?_squeeze]
  rw [eq, eq]
  cases ht : Head.table? s with
  | none =>
    rw [ht, Option.map_none] at heads
    rw [Option.map_eq_none_iff.mp heads.symm]
  | some head =>
    rw [ht, Option.map_some] at heads
    obtain ⟨head', ht', heq⟩ := Option.map_eq_some_iff.mp heads.symm
    obtain ⟨name, body⟩ := head
    obtain ⟨name', body'⟩ := head'
    obtain ⟨rfl, hbody⟩ := Prod.mk.inj heq
    rw [ht', Option.map_some, Option.map_some, Option.map_some, Option.map_some]
    exact congrArg some (squeeze_tableOf_congr hbody.symm (hs _ ht) (hs' _ ht'))

theorem HasNoun.member?_table (h : HasNoun .table s) : member? s = none := by
  rw [h.member?_eq, Definition.readAs]
  cases readTable s <;> rfl

theorem HasNoun.member?_field (h : HasNoun .field s) : member? s =
    (Head.field? s).map fun head => (head.table, .field (field head)) := by
  rw [h.member?_eq, Definition.readAs]
  cases Head.field? s <;> rfl

theorem HasNoun.member?_index (h : HasNoun .index s) : member? s =
    (Head.index? s).bind fun head =>
      (index s head).toOption.map fun i => (head.table, .index i) := by
  rw [h.member?_eq, Definition.readAs]
  cases Head.index? s with
  | none => rfl
  | some head =>
    simp only [expect, Except.bind, Option.bind_some]
    cases index s head <;> rfl

theorem HasNoun.member?_event (h : HasNoun .event s) : member? s =
    (Head.event? s).bind fun head =>
      (event s head).toOption.map fun e => (head.table, .event e) := by
  rw [h.member?_eq, Definition.readAs]
  cases Head.event? s with
  | none => rfl
  | some head =>
    simp only [expect, Except.bind, Option.bind_some]
    cases event s head <;> rfl

theorem member?_eq_none (h : ∀ noun, ¬HasNoun noun s) : member? s = none := by
  cases hnoun : Head.noun? s with
  | none =>
    rw [member?, Definition.read, hnoun]
    rfl
  | some found =>
    have other (noun : Noun) : Text.uppercase found.1 ≠ noun.keyword := fun hword =>
      h noun ⟨found, hnoun, hword⟩
    rw [member?, Definition.read_of_forall_ne hnoun other]
    rfl

theorem member?_squeeze (s : Text) :
    member? (squeeze s) = (member? s).map (Prod.map id Member.squeeze) := by
  by_cases hn : ∃ noun, HasNoun noun s
  · obtain ⟨noun, hn⟩ := hn
    have hn' := (hasNoun_squeeze noun s).mpr hn
    cases noun with
    | table =>
      rw [hn'.member?_table, hn.member?_table]
      rfl
    | field =>
      rw [hn'.member?_field, hn.member?_field, Head.field?_squeeze, Option.map_map, Option.map_map]
      congr 1
      funext head
      exact congrArg (fun f => (head.table, Member.field f)) (field_squeeze head)
    | index =>
      rw [hn'.member?_index, hn.member?_index, Head.index?_squeeze]
      cases Head.index? s with
      | none => rfl
      | some head =>
        have same := index_squeeze s (squeeze s) head
        simp only [Option.map_some, Option.bind_some, Head.Owned.squeeze, same, Option.map_map]
        rfl
    | event =>
      rw [hn'.member?_event, hn.member?_event, Head.event?_squeeze]
      cases Head.event? s with
      | none => rfl
      | some head =>
        have same := event_squeeze s (squeeze s) head
        simp only [Option.map_some, Option.bind_some, Head.Owned.squeeze, same, Option.map_map]
        rfl
  · have other := not_exists.mp hn
    rw [member?_eq_none other, member?_eq_none fun noun h =>
      other noun ((hasNoun_squeeze noun s).mp h)]
    rfl

end Statement

/-- Statements that are the same up to runs of blanks make the same schema up to runs of blanks, if
the query of each view stands nowhere before its own place. -/
theorem Script.squeeze_schemaOf {ss ss' : List Text} (h : ss.map squeeze = ss'.map squeeze)
    (hss : ∀ s ∈ ss, Statement.QueryFirst s) (hss' : ∀ s ∈ ss', Statement.QueryFirst s) :
    (schemaOf ss).squeeze = (schemaOf ss').squeeze := by
  refine squeeze_schemaOf_congr ?_ ?_
  · rw [tablesIn_eq, tablesIn_eq, List.map_filterMap, List.map_filterMap]
    induction ss generalizing ss' with
    | nil => rw [List.map_eq_nil_iff.mp h.symm]
    | cons s ss ih =>
      obtain ⟨s', ss', rfl, hs, htail⟩ := List.map_eq_cons_iff.mp h.symm
      rw [List.forall_mem_cons] at hss hss'
      rw [List.filterMap_cons, List.filterMap_cons, ih htail.symm hss.2 hss'.2,
        Statement.squeeze_table?_congr hs.symm hss.1 hss'.1]
  · have eq (ss : List Text) : (membersIn ss).map (Prod.map id Member.squeeze) =
        (ss.map squeeze).filterMap Statement.member? := by
      rw [membersIn_eq, List.map_filterMap, List.filterMap_map]
      exact congrArg (ss.filterMap ·) (funext fun s => (Statement.member?_squeeze s).symm)
    rw [eq, eq, h]

end SchemaDrift
