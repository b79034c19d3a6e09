import SchemaDrift.Proofs.Statement.Members
import SchemaDrift.Proofs.Statement.Pairs

namespace SchemaDrift

/-!
# Written tables

The header of a table is read back from the definition that is written for it: its kind, its flags,
its query and its permissions.
-/

/-- The query of a view and the expressions in the permissions of a table. -/
def Table.texts (t : Table) : List Text :=
  t.viewQuery.toList ++ t.permissions.granted.map (·.2)

/-- Whether the text is the query of a view: it starts with its keyword and holds no word that ends
it. -/
structure IsQuery (q : Text) : Prop where
  select : ∃ rest, Text.stripStart "SELECT" q = some rest ∧ Text.atWordEnd rest = true
  permissions : Keyword.Free "PERMISSIONS" q
  comments : Keyword.Free "COMMENT" q

instance (q : Text) : Decidable (IsQuery q) :=
  decidable_of_iff ((Text.stripStart "SELECT" q).any Text.atWordEnd = true ∧
      Keyword.Free "PERMISSIONS" q ∧ Keyword.Free "COMMENT" q)
    ⟨fun ⟨hs, hp, hc⟩ => ⟨(Option.any_eq_true _ _).mp hs, hp, hc⟩,
      fun h => ⟨(Option.any_eq_true _ _).mpr h.select, h.permissions, h.comments⟩⟩

/-- Whether the header of the table can be written. Just a view has a query, and no text looks like
the kind of a relation, the query of a view or a flag where the table is nothing of that kind. -/
structure Table.HeaderWritable (t : Table) : Prop where
  isName : IsName t.name
  notOverwrite : Text.sameLetters t.name "overwrite" = false
  settled : ∀ e ∈ t.texts, Script.Settled e
  permissions : t.permissions.Writable
  view : t.viewQuery.isSome ↔ t.kind = .view
  query : ∀ q ∈ t.viewQuery, IsQuery q
  noRelation : t.kind ≠ .relation → ∀ e ∈ t.texts, Statement.hasRelation none e = false
  noQuery : t.kind ≠ .view → ∀ e ∈ t.texts, Statement.query? none e = none
  noFlag : t.kind ≠ .view → ∀ e ∈ t.texts, Keyword.Free "DROP" e ∧ Keyword.Free "SCHEMALESS" e

instance (t : Table) : Decidable t.HeaderWritable :=
  decidable_of_iff (IsName t.name ∧ Text.sameLetters t.name "overwrite" = false ∧
      (∀ e ∈ t.texts, Script.Settled e) ∧ t.permissions.Writable ∧
      (t.viewQuery.isSome ↔ t.kind = .view) ∧ (∀ q ∈ t.viewQuery, IsQuery q) ∧
      (t.kind ≠ .relation → ∀ e ∈ t.texts, Statement.hasRelation none e = false) ∧
      (t.kind ≠ .view → ∀ e ∈ t.texts, Statement.query? none e = none) ∧
      (t.kind ≠ .view → ∀ e ∈ t.texts, Keyword.Free "DROP" e ∧ Keyword.Free "SCHEMALESS" e))
    ⟨fun ⟨h₁, h₂, h₃, h₄, h₅, h₆, h₇, h₈, h₉⟩ => ⟨h₁, h₂, h₃, h₄, h₅, h₆, h₇, h₈, h₉⟩,
      fun h => ⟨h.isName, h.notOverwrite, h.settled, h.permissions, h.view, h.query, h.noRelation,
        h.noQuery, h.noFlag⟩⟩

namespace Statement

open Statement.Clauses

/-- The words for the kind of a table. -/
def kindWords : TableKind → List Text
  | .normal => ["TYPE", "NORMAL"]
  | .relation => ["TYPE", "RELATION"]
  | .view => []

/-- The words for the flags of a table. -/
def flagWords (drop schemafull : Bool) : List Text :=
  (if drop then ["DROP"] else []) ++ [if schemafull then "SCHEMAFULL" else "SCHEMALESS"]

/-- The parts of a written table behind its name. -/
def tableParts (t : Table) : List Text :=
  kindWords t.kind ++ (flagWords t.drop t.schemafull ++
    ((optional "AS" t.viewQuery).parts ++ permissionParts t.permissions))

theorem phrase_kindWords (k : TableKind) : phrase (kindWords k) = kind k := by
  cases k <;> rfl

theorem phrase_flagWords (drop schemafull : Bool) : phrase (flagWords drop schemafull) =
    word "DROP" drop ++ (if schemafull then " SCHEMAFULL" else " SCHEMALESS" : Text) := by
  cases drop <;> cases schemafull <;> rfl

theorem writeTable_eq (t : Table) (mode : Mode) :
    writeTable t mode = Head.definition .table mode (t.name :: tableParts t) ++ [';'] := by
  have parts : phrase (tableParts t) = kind t.kind ++ ((word "DROP" t.drop ++
      (if t.schemafull then " SCHEMAFULL" else " SCHEMALESS" : Text)) ++
        (clause "AS" t.viewQuery ++ permissions t.permissions)) := by
    simp only [tableParts, phrase_append, phrase_kindWords, phrase_flagWords, phrase_optional,
      phrase_permissionParts]
  have written : Head.definition .table mode (t.name :: tableParts t) =
      "DEFINE TABLE" ++ (mode.word ++ (" " ++ (t.name ++ phrase (tableParts t)))) := by
    cases mode <;> rfl
  rw [parts] at written
  rw [written]
  unfold writeTable
  simp only [List.append_assoc]
  rfl

theorem tableParts_of_view {t : Table} (h : t.HeaderWritable) (hk : t.kind = .view) :
    ∃ q, t.viewQuery = some q ∧ tableParts t =
      flagWords t.drop t.schemafull ++ (("AS" : Text) :: q :: permissionParts t.permissions) := by
  obtain ⟨q, hq⟩ := Option.isSome_iff_exists.mp (h.view.mpr hk)
  refine ⟨q, hq, ?_⟩
  rw [tableParts, hk, hq]
  rfl

theorem tableParts_of_not_view {t : Table} (h : t.HeaderWritable) (hk : t.kind ≠ .view) :
    t.viewQuery = none ∧ tableParts t =
      kindWords t.kind ++ (flagWords t.drop t.schemafull ++ permissionParts t.permissions) := by
  have hq : t.viewQuery = none := by
    cases hq : t.viewQuery with
    | none => rfl
    | some q => exact absurd (h.view.mp (by rw [hq]; rfl)) hk
  refine ⟨hq, ?_⟩
  rw [tableParts, hq]
  rfl

theorem mem_texts_of_permission {t : Table} {op : Operation} {expr : Text}
    (h : t.permissions.get op = some expr) : expr ∈ t.texts :=
  List.mem_append_right _ (List.mem_map.mpr ⟨(op, expr), mem_granted h, rfl⟩)

theorem mem_texts_of_query {t : Table} {q : Text} (h : t.viewQuery = some q) : q ∈ t.texts := by
  rw [Table.texts, h]
  exact List.mem_cons_self

/-! ## The kind and the query -/

theorem plain_flagWords_relation (drop schemafull : Bool) :
    ∀ w ∈ flagWords drop schemafull, IsPlain "TYPE" "RELATION" w := by
  cases drop <;> cases schemafull <;> decide

theorem plain_flagWords_query (drop schemafull : Bool) :
    ∀ w ∈ flagWords drop schemafull, IsPlain "AS" "SELECT" w := by
  cases drop <;> cases schemafull <;> decide

theorem plain_kindWords_query (k : TableKind) : ∀ w ∈ kindWords k, IsPlain "AS" "SELECT" w := by
  cases k <;> decide

/-- The permissions clause tells nothing about the kind unless an expression there does. -/
theorem relation_permissionParts {p : Permissions} (hw : p.Writable)
    (h : ∀ op, ∀ expr ∈ p.get op, hasRelation none expr = false) :
    pair? "TYPE" "RELATION" none (phrase (permissionParts p)) = none := by
  refine pair?_permissionParts isPair_relation (by decide) (by decide)
    (fun op => by cases op <;> decide) (by decide) fun op expr he => ?_
  refine ⟨(hw.isGrant op expr he).settled.trimmed, ?_⟩
  rw [← Option.isNone_iff_eq_none, ← Option.not_isSome, ← hasRelation_eq_pair?, h op expr he]
  rfl

theorem query_permissionParts {p : Permissions} (hw : p.Writable)
    (h : ∀ op, ∀ expr ∈ p.get op, query? none expr = none) :
    pair? "AS" "SELECT" none (phrase (permissionParts p)) = none := by
  refine pair?_permissionParts isPair_query (by decide) (by decide)
    (fun op => by cases op <;> decide) (by decide) fun op expr he => ?_
  refine ⟨(hw.isGrant op expr he).settled.trimmed, ?_⟩
  rw [← query?_eq_pair?, h op expr he]

/-- Just the definition of a relation says that it is one. -/
theorem hasRelation_tableParts {t : Table} (h : t.HeaderWritable) :
    hasRelation none (phrase (tableParts t)) = decide (t.kind = .relation) := by
  have hw := isPair_relation
  have flags := plain_flagWords_relation t.drop t.schemafull
  rw [hasRelation_eq_pair?]
  cases hk : t.kind with
  | relation =>
    rw [(tableParts_of_not_view h (by rw [hk]; decide)).2, hk]
    have trimmed : Text.IsTrimmed "RELATION" := by decide
    have self : Text.stripStart "RELATION" "RELATION" = some [] := rfl
    exact congrArg Option.isSome (pair?_phrase_self hw trimmed self rfl
      (flagWords t.drop t.schemafull ++ permissionParts t.permissions))
  | normal =>
    have clause := relation_permissionParts h.permissions fun op expr he =>
      h.noRelation (by rw [hk]; decide) expr (mem_texts_of_permission he)
    have word : NoPair "TYPE" "RELATION" "TYPE" := ⟨by decide, by decide⟩
    have normal : ∀ w ∈ [("NORMAL" : Text)], IsPlain "TYPE" "RELATION" w := by decide
    rw [(tableParts_of_not_view h (by rw [hk]; decide)).2, hk]
    change (pair? "TYPE" "RELATION" none (phrase (("TYPE" : Text) :: ([("NORMAL" : Text)] ++
      (flagWords t.drop t.schemafull ++ permissionParts t.permissions))))).isSome = _
    rw [pair?_phrase_cons hw word, pair?_phrase_append hw normal,
      pair?_phrase_append hw flags, clause]
    · rfl
    · rintro - _ ⟨⟩
      exact ⟨by decide, by decide⟩
  | view =>
    obtain ⟨q, hq, hparts⟩ := tableParts_of_view h hk
    have clause := relation_permissionParts h.permissions fun op expr he =>
      h.noRelation (by rw [hk]; decide) expr (mem_texts_of_permission he)
    have word : ∀ w ∈ [("AS" : Text)], IsPlain "TYPE" "RELATION" w := by decide
    have query : NoPair "TYPE" "RELATION" q := by
      have hm := mem_texts_of_query hq
      refine ⟨(h.settled q hm).trimmed, ?_⟩
      rw [← Option.isNone_iff_eq_none, ← Option.not_isSome, ← hasRelation_eq_pair?,
        h.noRelation (by rw [hk]; decide) q hm]
      rfl
    rw [hparts, pair?_phrase_append hw flags]
    change (pair? "TYPE" "RELATION" none
      (phrase ([("AS" : Text)] ++ (q :: permissionParts t.permissions)))).isSome = _
    rw [pair?_phrase_append hw word, pair?_phrase_cons hw query,
      clause]
    · rfl
    · intro _ w hhead
      rw [head?_permissionParts t.permissions w hhead]
      exact ⟨by decide, by decide⟩

/-- The query of a view is found with everything that follows it. -/
theorem query?_tableParts {t : Table} (h : t.HeaderWritable) :
    query? none (phrase (tableParts t)) =
      t.viewQuery.map (· ++ phrase (permissionParts t.permissions)) := by
  have hw := isPair_query
  have flags := plain_flagWords_query t.drop t.schemafull
  rw [query?_eq_pair?]
  by_cases hk : t.kind = .view
  · obtain ⟨q, hq, hparts⟩ := tableParts_of_view h hk
    obtain ⟨rest, hstrip, hend⟩ := (h.query q hq).select
    have trimmed := (h.settled q (mem_texts_of_query hq)).trimmed
    rw [hparts, hq, pair?_phrase_append hw flags]
    exact pair?_phrase_self hw trimmed hstrip hend _
  · obtain ⟨hq, hparts⟩ := tableParts_of_not_view h hk
    have clause := query_permissionParts h.permissions fun op expr he =>
      h.noQuery hk expr (mem_texts_of_permission he)
    rw [hparts, hq, pair?_phrase_append hw (plain_kindWords_query t.kind),
      pair?_phrase_append hw flags, clause]
    rfl

theorem viewQuery?_tableParts {t : Table} (h : t.HeaderWritable) :
    viewQuery? (phrase (tableParts t)) = t.viewQuery := by
  rw [viewQuery?, query?_tableParts h]
  cases hq : t.viewQuery with
  | none => rfl
  | some q =>
    have query := h.query q hq
    have settled := h.settled q (mem_texts_of_query hq)
    have solid : ∀ k ∈ (["PERMISSIONS", "COMMENT"] : List Text), Keyword.IsSolid k := by decide
    have free : ∀ k ∈ (["PERMISSIONS", "COMMENT"] : List Text), Keyword.cut? k none q = none := by
      simp only [List.forall_mem_cons]
      exact ⟨Keyword.free_iff.mp query.permissions, Keyword.free_iff.mp query.comments, by simp⟩
    have blank : ∀ c ∈ Keyword.upTo ["PERMISSIONS", "COMMENT"] none
        (phrase (permissionParts t.permissions)), Text.isBlank c = true := by
      cases hp : permissionParts t.permissions with
      | nil => simp [Keyword.upTo]
      | cons w ws =>
        rw [head?_permissionParts t.permissions w (by rw [hp]; rfl),
          upTo_phrase_keyword solid (by decide)]
        simp
    have nothing : ∀ c ∈ ([] : Text), Text.isBlank c = true := by simp
    rw [Option.map_some, Option.map_some, Keyword.upTo_append solid free (isEdge_head_phrase _)]
    exact congrArg some (Clause.clean_surrounded settled.isBody nothing blank)

/-! ## The flags -/

theorem solid_words (k : TableKind) (drop schemafull : Bool) :
    ∀ w ∈ kindWords k ++ flagWords drop schemafull, Keyword.IsSolid w := by
  cases k <;> cases drop <;> cases schemafull <;> decide

theorem occurs_words {keyword : Text} (hk : Keyword.IsSolid keyword) {ws tail : List Text}
    (hws : ∀ w ∈ ws, Keyword.IsSolid w) (htail : ∀ q ∈ tail, Keyword.Free keyword q) :
    Keyword.occurs keyword (phrase (ws ++ tail)) = decide (keyword ∈ ws) := by
  have hwords : words (ws.map fun w => (w, none)) = ws := by
    rw [words, List.map_map]
    exact List.map_id ws
  have hparts : parts (ws.map fun w => (w, none)) = ws := by
    simp [parts, List.flatMap_map]
  have bodies : ∀ c ∈ ws.map (fun w => ((w, none) : Text × Option Text)), ∀ b ∈ c.2,
      Keyword.Free keyword b := by
    intro c hc b hb
    obtain ⟨w, -, rfl⟩ := List.mem_map.mp hc
    cases hb
  have read := occurs_clauses hk (by rwa [hwords]) bodies htail
  rwa [hwords, hparts] at read

/-- The first place of a pattern is not in a text in which its first two characters never meet. -/
theorem cutAt_append {a b : Char} (hab : a ≠ b) {x : Text}
    (h : x.IsChain fun c d => ¬(c = a ∧ d = b)) (p rest : Text) :
    Text.cutAt (a :: b :: p) (x ++ ((a :: b :: p) ++ rest)) = some (x, rest) := by
  induction x with
  | nil =>
    have here := Text.stripStart_append (a :: b :: p) rest
    rw [List.cons_append] at here
    rw [List.nil_append, List.cons_append, Text.cutAt, here]
  | cons c cs ih =>
    have none : Text.stripStart (a :: b :: p) (c :: (cs ++ ((a :: b :: p) ++ rest))) = none := by
      rw [Text.stripStart]
      split
      · rename_i hac
        cases cs with
        | nil => rw [List.nil_append, List.cons_append, Text.stripStart, if_neg (Ne.symm hab)]
        | cons d ds =>
          have hd := (List.isChain_cons_cons.mp h).1
          rw [List.cons_append, Text.stripStart, if_neg fun hb => hd ⟨hac.symm, hb.symm⟩]
      · rfl
    rw [List.cons_append, Text.cutAt, none, ih h.of_cons]
    rfl

theorem flags_of_view {t : Table} (h : t.HeaderWritable) (hk : t.kind = .view) :
    flags (phrase (tableParts t)) t.viewQuery =
      phrase (flagWords t.drop t.schemafull ++ [("AS" : Text), []]) := by
  obtain ⟨q, hq, hparts⟩ := tableParts_of_view h hk
  obtain ⟨rest, hstrip, -⟩ := (h.query q hq).select
  have start : q = 'S' :: 'E' :: ("LECT" ++ rest) := Text.stripStart_eq_some_iff.mp hstrip
  have apart : (phrase (flagWords t.drop t.schemafull ++ [("AS" : Text), []])).IsChain
      fun c d => ¬(c = 'S' ∧ d = 'E') := by
    cases t.drop <;> cases t.schemafull <;> decide
  have cut := cutAt_append (by decide) apart ("LECT" ++ rest)
    (phrase (permissionParts t.permissions))
  have parts : phrase (tableParts t) =
      phrase (flagWords t.drop t.schemafull ++ [("AS" : Text), []]) ++
        (q ++ phrase (permissionParts t.permissions)) := by
    rw [hparts]
    simp
  rw [← start] at cut
  rw [hq, flags, Text.before, parts, cut]

/-- The words that stand for the flags of a table are found just if the table has them. -/
theorem occurs_flags {t : Table} (h : t.HeaderWritable) {keyword : Text}
    (hk : keyword ∈ (["DROP", "SCHEMALESS"] : List Text)) :
    Keyword.occurs keyword (flags (phrase (tableParts t)) t.viewQuery) =
      decide (keyword ∈ flagWords t.drop t.schemafull) := by
  have solid : ∀ k ∈ (["DROP", "SCHEMALESS"] : List Text), Keyword.IsSolid k := by decide
  by_cases hview : t.kind = .view
  · have rest : ∀ k ∈ (["DROP", "SCHEMALESS"] : List Text), ∀ q ∈ [("AS" : Text), []],
        Keyword.Free k q := by decide
    have words := solid_words .view t.drop t.schemafull
    rw [flags_of_view h hview]
    exact occurs_words (solid keyword hk) words (rest keyword hk)
  · obtain ⟨hq, hparts⟩ := tableParts_of_not_view h hview
    have clause : ∀ q ∈ permissionParts t.permissions, Keyword.Free keyword q := by
      have words : ∀ k ∈ (["DROP", "SCHEMALESS"] : List Text),
          ∀ w ∈ (("PERMISSIONS" : Text) :: "FOR" :: Operation.all.map Operation.keyword),
            Keyword.Free k w := by decide
      refine forall_permissionParts (words _ hk _ (by simp)) (words _ hk _ (by simp))
        (fun op => words _ hk _ (by simp)) fun op expr he => ?_
      have hfree := h.noFlag hview expr (mem_texts_of_permission he)
      simp only [List.mem_cons, List.not_mem_nil, or_false] at hk
      rcases hk with rfl | rfl
      · exact hfree.1
      · exact hfree.2
    have kinds : ∀ k ∈ (["DROP", "SCHEMALESS"] : List Text), k ∉ kindWords t.kind := by
      cases t.kind <;> decide
    have occurs := occurs_words (solid keyword hk) (solid_words t.kind t.drop t.schemafull) clause
    rw [List.append_assoc, ← hparts] at occurs
    rw [hq, flags, occurs]
    simp [kinds keyword hk]

/-! ## The header -/

/-- The name is followed by a word that is not part of a guard. -/
theorem exists_tableParts_eq_cons (t : Table) : ∃ p ps, tableParts t = p :: ps ∧
    Text.IsTrimmed p ∧ Text.stripKeyword "not" (p ++ phrase ps) = none := by
  have first : ∀ (k : TableKind) (d s : Bool), ∃ p ws, kindWords k ++ flagWords d s = p :: ws ∧
      Text.IsTrimmed p ∧ ∀ rest, Text.stripKeyword "not" (p ++ rest) = none := by
    intro k d s
    cases k <;> cases d <;> cases s <;> exact ⟨_, _, rfl, by decide, fun _ => rfl⟩
  obtain ⟨p, ws, hp, htrim, hnot⟩ := first t.kind t.drop t.schemafull
  refine ⟨p, ws ++ ((optional "AS" t.viewQuery).parts ++ permissionParts t.permissions), ?_, htrim,
    hnot _⟩
  rw [tableParts, ← List.append_assoc, hp]
  rfl

theorem free_tableParts {t : Table} (h : t.HeaderWritable) :
    ∀ q ∈ kindWords t.kind ++ (flagWords t.drop t.schemafull ++ (optional "AS" t.viewQuery).parts),
      Keyword.Free "PERMISSIONS" q := by
  have words : ∀ (k : TableKind) (d s : Bool), ∀ w ∈ kindWords k ++ flagWords d s,
      Keyword.Free "PERMISSIONS" w := by
    intro k d s
    cases k <;> cases d <;> cases s <;> decide
  rw [← List.append_assoc]
  refine List.forall_mem_append.mpr ⟨words _ _ _, ?_⟩
  cases hq : t.viewQuery with
  | none => simp [Clauses.optional, parts]
  | some q =>
    change ∀ p ∈ [("AS" : Text), q], Keyword.Free "PERMISSIONS" p
    simp only [List.forall_mem_cons]
    exact ⟨by decide, (h.query q hq).permissions, by simp⟩

/-- The header of a written table is read back. -/
theorem readTable_definition {t : Table} (h : t.HeaderWritable) (mode : Mode) :
    readTable (Head.definition .table mode (t.name :: tableParts t)) =
      .ok { t with fields := [], indexes := [], events := [] } := by
  obtain ⟨p, ps, hparts, htrim, hnot⟩ := exists_tableParts_eq_cons t
  have head := Head.table?_definition h.isName h.notOverwrite htrim hnot mode
  rw [← hparts] at head
  have hdrop : Keyword.occurs "DROP" (flags (phrase (tableParts t)) t.viewQuery) = t.drop := by
    rw [occurs_flags h (by decide)]
    cases t.drop <;> cases t.schemafull <;> decide
  have hfull : Keyword.occurs "SCHEMALESS" (flags (phrase (tableParts t)) t.viewQuery) =
      !t.schemafull := by
    rw [occurs_flags h (by decide)]
    cases t.drop <;> cases t.schemafull <;> decide
  have hpermissions : Clause.permissions (phrase (tableParts t)) = t.permissions := by
    have read := permissions_phrase h.permissions (free_tableParts h)
    rwa [List.append_assoc, List.append_assoc] at read
  have hkind : (if hasRelation none (phrase (tableParts t)) then TableKind.relation
      else if t.viewQuery.isSome then .view else .normal) = t.kind := by
    rw [hasRelation_tableParts h]
    have view := h.view
    cases hk : t.kind <;> rw [hk] at view <;> simp_all
  rw [readTable, head]
  simp only [viewQuery?_tableParts h, hkind, hdrop, hfull, hpermissions, Bool.not_not]

theorem settled_table {t : Table} (hn : IsName t.name) (h : ∀ e ∈ t.texts, Script.Settled e)
    (mode : Mode) :
    Script.Settled (Head.definition .table mode (t.name :: tableParts t)) := by
  have words : ∀ (k : TableKind) (d s : Bool), ∀ w ∈ kindWords k ++ flagWords d s,
      Script.Settled w := by
    intro k d s
    cases k <;> cases d <;> cases s <;> decide
  apply Head.settled_definition .table mode
  rw [tableParts, ← List.append_assoc]
  simp only [List.forall_mem_cons, List.forall_mem_append]
  refine ⟨⟨hn.isTrimmed, hn.closed⟩, List.forall_mem_append.mp (words _ _ _), ?_,
    settled_permissionParts fun op expr he => h expr (mem_texts_of_permission he)⟩
  cases hq : t.viewQuery with
  | none => simp [Clauses.optional, parts]
  | some q =>
    change ∀ p ∈ [("AS" : Text), q], Script.Settled p
    simp only [List.forall_mem_cons]
    exact ⟨by decide, h q (mem_texts_of_query hq), by simp⟩

/-- The definition of a table defines its header. -/
theorem read_table {t : Table} (h : t.HeaderWritable) (mode : Mode) :
    Definition.read (Head.definition .table mode (t.name :: tableParts t)) =
      .ok (.table { t with fields := [], indexes := [], events := [] }) := by
  obtain ⟨rest, hnoun⟩ := Head.noun?_definition .table mode (t.name :: tableParts t)
  rw [Definition.read_of_noun? hnoun, Definition.readAs, readTable_definition h]
  rfl

end Statement

end SchemaDrift
