import SchemaDrift.Proofs.Statement.Tables
import SchemaDrift.Proofs.Text.Ends

namespace SchemaDrift

/-!
# Blanks behind clauses

Blanks at the end of the clauses of a definition matter to none of them, since keywords hold no
blank and what a clause says is trimmed.
-/

open Text (trimEnd trimEnd_cons trimEnd_trimEnd)

namespace Keyword

theorem isEdge_head?_trimEnd (t : Text) : isEdge (trimEnd t).head? = isEdge t.head? := by
  rcases Text.head?_trimEnd t with h | ⟨h, c, cs, rfl, hc⟩
  · rw [h]
  · rw [h]
    simp [isEdge, hc]

theorem IsSolid.isBlank_eq_false {keyword : Text} (hk : IsSolid keyword) {c : Char}
    (hc : c ∈ keyword) : Text.isBlank c = false := by
  have edge := hk.2 c hc
  simp only [isEdge, Bool.or_eq_false_iff] at edge
  exact edge.1.1

variable {keyword : Text}

theorem standing?_trimEnd (hk : IsSolid keyword) (before : Option Char) (t : Text) :
    standing? keyword before (trimEnd t) = (standing? keyword before t).map trimEnd := by
  unfold standing?
  split
  · rw [Text.stripStart_trimEnd hk.1
      fun c hc => hk.isBlank_eq_false (List.mem_of_mem_getLast? hc)]
    cases Text.stripStart keyword t with
    | none => rfl
    | some rest =>
      simp only [Option.map_some, Option.filter_some, isEdge_head?_trimEnd]
      split <;> rfl
  · rfl

theorem cut?_of_blank (hk : IsSolid keyword) {before : Option Char} {t : Text}
    (h : trimEnd t = []) : cut? keyword before t = none := by
  rw [Option.eq_none_iff_forall_ne_some]
  rintro ⟨a, b⟩ hcut
  obtain ⟨c, cs, rfl⟩ := List.exists_cons_of_ne_nil hk.1
  have solid := hk.isBlank_eq_false List.mem_cons_self
  have blank := Text.trimEnd_eq_nil_iff.mp h c (by simp [append_of_cut? hcut])
  rw [solid] at blank
  cases blank

theorem cut?_trimEnd (hk : IsSolid keyword) (before : Option Char) (t : Text) :
    cut? keyword before (trimEnd t) = (cut? keyword before t).map (Prod.map id trimEnd) := by
  induction t generalizing before with
  | nil => rfl
  | cons c cs ih =>
    have here := standing?_trimEnd hk before (c :: cs)
    rcases Text.trimEnd_cons_cases c cs with h | h
    · rw [h, cut?_of_blank hk h]
      rfl
    · rw [h] at here ⊢
      rw [cut?, cut?, here]
      cases standing? keyword before (c :: cs) with
      | some rest => rfl
      | none =>
        simp only [Option.map_none, ih, Option.map_map]
        rfl

theorem occurs_trimEnd (hk : IsSolid keyword) (t : Text) :
    occurs keyword (trimEnd t) = occurs keyword t := by
  rw [occurs, cut?_trimEnd hk, Option.isSome_map, occurs]

theorem upTo_trimEnd {keywords : List Text} (hk : ∀ k ∈ keywords, IsSolid k)
    (before : Option Char) (t : Text) :
    trimEnd (upTo keywords before (trimEnd t)) = trimEnd (upTo keywords before t) := by
  induction t generalizing before with
  | nil => rfl
  | cons c cs ih =>
    rcases Text.trimEnd_cons_cases c cs with h | h
    · have blank : trimEnd (upTo keywords before (c :: cs)) = [] :=
        Text.trimEnd_eq_nil_iff.mpr fun d hd =>
          Text.trimEnd_eq_nil_iff.mp h d ((isPrefix_upTo keywords before _).subset hd)
      rw [h, blank]
      rfl
    · have same : (keywords.any fun k => (standing? k before (c :: trimEnd cs)).isSome) =
          keywords.any fun k => (standing? k before (c :: cs)).isSome := by
        rw [Bool.eq_iff_iff, List.any_eq_true, List.any_eq_true]
        refine exists_congr fun k => and_congr_right fun hkm => ?_
        have here := standing?_trimEnd (hk k hkm) before (c :: cs)
        rw [h] at here
        rw [here, Option.isSome_map]
      rw [h, upTo, upTo, same]
      split
      · rfl
      · rw [trimEnd_cons, ih, ← trimEnd_cons]

end Keyword

namespace Clause

theorem clean_eq_of_trimEnd_eq {s t : Text} (h : trimEnd s = trimEnd t) : clean s = clean t := by
  rw [clean, clean, ← Text.trim_trimEnd s, h, Text.trim_trimEnd]

@[simp] theorem clean_trimEnd (t : Text) : clean (trimEnd t) = clean t :=
  clean_eq_of_trimEnd_eq (trimEnd_trimEnd t)

theorem body?_trimEnd {keyword : Text} {terminators : List Text} (hk : Keyword.IsSolid keyword)
    (hts : ∀ k ∈ terminators, Keyword.IsSolid k) (t : Text) :
    body? keyword terminators (trimEnd t) = body? keyword terminators t := by
  have others : ∀ k ∈ terminators.filter (· != keyword), Keyword.IsSolid k := fun k hkm =>
    hts k (List.mem_filter.mp hkm).1
  rw [body?, body?, Keyword.cut?_trimEnd hk]
  cases Keyword.cut? keyword none t with
  | none => rfl
  | some cut =>
    have same := clean_eq_of_trimEnd_eq (Keyword.upTo_trimEnd others none cut.2)
    simp only [Option.map_some, Prod.map_snd, same]

theorem permissions_trimEnd (t : Text) : permissions (trimEnd t) = permissions t := by
  have solid : Keyword.IsSolid "PERMISSIONS" ∧ Keyword.IsSolid "COMMENT" := by decide
  rw [permissions, permissions, Keyword.cut?_trimEnd solid.1]
  cases Keyword.cut? "PERMISSIONS" none t with
  | none => rfl
  | some cut =>
    simp only [Option.map_some, Prod.map_snd, Keyword.cut?_trimEnd solid.2]
    cases Keyword.cut? "COMMENT" none cut.2 with
    | none => simp only [Option.map_none, clean_trimEnd]
    | some cut => rfl

end Clause

namespace Statement

variable {first second : Text}

theorem behind?_trimEnd (h₁ : Keyword.IsSolid first) (h₂ : Keyword.IsSolid second) (t : Text) :
    behind? first second (trimEnd t) = (behind? first second t).map trimEnd := by
  have ends {k : Text} (hk : Keyword.IsSolid k) : ∀ c ∈ k.getLast?, Text.isBlank c = false :=
    fun c hc => hk.isBlank_eq_false (List.mem_of_mem_getLast? hc)
  have next (rest : Text) : (Text.stripStart second (trimEnd rest)).any Text.atWordEnd =
      (Text.stripStart second rest).any Text.atWordEnd := by
    rw [Text.stripStart_trimEnd h₂.1 (ends h₂), Option.any_map]
    congr 1
    funext rest
    exact Text.atWordEnd_trimEnd rest
  rw [behind?, behind?, Text.stripStart_trimEnd h₁.1 (ends h₁)]
  cases Text.stripStart first t with
  | none => rfl
  | some r =>
    rw [Option.map_some, Option.bind_some, Option.bind_some]
    rcases Text.skipBlanks?_trimEnd r with h | ⟨h, h'⟩
    · rw [h]
      cases Text.skipBlanks? r with
      | none => rfl
      | some rest =>
        simp only [Option.map_some, Option.filter_some, next]
        split <;> rfl
    · -- Nothing but blanks follows the first word, so the second word does not.
      obtain ⟨d, ds, rfl⟩ := List.exists_cons_of_ne_nil h₂.1
      rw [h, h']
      rfl

theorem pair?_trimEnd (h₁ : Keyword.IsSolid first) (h₂ : Keyword.IsSolid second)
    (before : Option Char) (t : Text) :
    pair? first second before (trimEnd t) = (pair? first second before t).map trimEnd := by
  have blank (t : Text) (before : Option Char) (h : trimEnd t = []) :
      pair? first second before t = none := by
    induction t generalizing before with
    | nil => rfl
    | cons c cs ih =>
      have here := behind?_trimEnd h₁ h₂ (c :: cs)
      have none : behind? first second [] = none := by
        obtain ⟨d, ds, rfl⟩ := List.exists_cons_of_ne_nil h₁.1
        rfl
      rw [h, none] at here
      have rest : trimEnd cs = [] :=
        Text.trimEnd_eq_nil_iff.mpr (List.forall_mem_cons.mp (Text.trimEnd_eq_nil_iff.mp h)).2
      rw [pair?, ih _ rest, Option.map_eq_none_iff.mp here.symm]
      split <;> rfl
  induction t generalizing before with
  | nil => rfl
  | cons c cs ih =>
    rcases Text.trimEnd_cons_cases c cs with h | h
    · rw [h, blank _ _ h]
      rfl
    · have here := behind?_trimEnd h₁ h₂ (c :: cs)
      rw [h] at here ⊢
      rw [pair?, pair?, ih, here]
      split
      · rfl
      · cases behind? first second (c :: cs) <;> rfl

theorem hasRelation_trimEnd (t : Text) :
    hasRelation none (trimEnd t) = hasRelation none t := by
  rw [hasRelation_eq_pair?, pair?_trimEnd (by decide) (by decide), Option.isSome_map,
    hasRelation_eq_pair?]

theorem viewQuery?_trimEnd (t : Text) : viewQuery? (trimEnd t) = viewQuery? t := by
  have words : ∀ k ∈ (["PERMISSIONS", "COMMENT"] : List Text), Keyword.IsSolid k := by decide
  rw [viewQuery?, viewQuery?, query?_eq_pair?, query?_eq_pair?,
    pair?_trimEnd (by decide) (by decide), Option.map_map]
  congr 1
  funext query
  exact Clause.clean_eq_of_trimEnd_eq (Keyword.upTo_trimEnd words none query)

/-- A query ends with something that is not blank. -/
theorem getLast?_of_viewQuery? {t q : Text} (h : viewQuery? t = some q) :
    ∀ c ∈ q.getLast?, Text.isBlank c = false := by
  obtain ⟨query, -, rfl⟩ := Option.map_eq_some_iff.mp h
  exact Text.dropEndWhile_eq_self_iff.mp (trimEnd_trimEnd _)

theorem occurs_flags_trimEnd {keyword : Text} (hk : Keyword.IsSolid keyword) (t : Text)
    {query : Option Text} (hq : ∀ q ∈ query, ∀ c ∈ q.getLast?, Text.isBlank c = false) :
    Keyword.occurs keyword (flags (trimEnd t) query) = Keyword.occurs keyword (flags t query) := by
  cases query with
  | none => exact Keyword.occurs_trimEnd hk t
  | some q =>
    by_cases hne : q = []
    · have nothing (t : Text) : Text.before [] t = [] := by cases t <;> rfl
      rw [hne, flags, flags, nothing, nothing]
    · rw [flags, flags, Text.before, Text.before, Text.cutAt_trimEnd hne (hq q rfl)]
      cases Text.cutAt q t with
      | none => exact Keyword.occurs_trimEnd hk t
      | some cut => rfl

/-! ## Definitions -/

/-- What is read from the body of a table. -/
def tableOf (name body : Text) : Table where
  name
  kind := if hasRelation none body then .relation else if (viewQuery? body).isSome then .view
    else .normal
  drop := Keyword.occurs "DROP" (flags body (viewQuery? body))
  schemafull := !Keyword.occurs "SCHEMALESS" (flags body (viewQuery? body))
  viewQuery := viewQuery? body
  permissions := Clause.permissions body

theorem tableOf_trimEnd (name body : Text) : tableOf name (trimEnd body) = tableOf name body := by
  have last : ∀ q ∈ viewQuery? body, ∀ c ∈ q.getLast?, Text.isBlank c = false := fun q hq =>
    getLast?_of_viewQuery? hq
  rw [tableOf, tableOf, hasRelation_trimEnd, viewQuery?_trimEnd,
    occurs_flags_trimEnd (by decide) body last, occurs_flags_trimEnd (by decide) body last,
    Clause.permissions_trimEnd]

theorem field_trimEnd (head : Head.Owned) :
    field { head with body := trimEnd head.body } = field head := by
  have solid := isSolid_fieldClauses
  have body (k : Text) (hk : Keyword.IsSolid k) :
      Clause.body? k fieldClauses (trimEnd head.body) = Clause.body? k fieldClauses head.body :=
    Clause.body?_trimEnd hk solid _
  simp only [field, body _ (by decide : Keyword.IsSolid "TYPE"),
    body _ (by decide : Keyword.IsSolid "DEFAULT"), body _ (by decide : Keyword.IsSolid "VALUE"),
    body _ (by decide : Keyword.IsSolid "ASSERT"), Clause.permissions_trimEnd,
    Keyword.occurs_trimEnd (by decide : Keyword.IsSolid "FLEXIBLE"),
    Keyword.occurs_trimEnd (by decide : Keyword.IsSolid "READONLY")]

theorem index_trimEnd (statement : Text) (head : Head.Owned) :
    index statement { head with body := trimEnd head.body } = index statement head := by
  have solid := isSolid_indexClauses
  have body (k : Text) (hk : Keyword.IsSolid k) :
      Clause.body? k indexClauses (trimEnd head.body) = Clause.body? k indexClauses head.body :=
    Clause.body?_trimEnd hk solid _
  simp only [index, body _ (by decide : Keyword.IsSolid "FIELDS"),
    body _ (by decide : Keyword.IsSolid "COLUMNS"),
    Keyword.occurs_trimEnd (by decide : Keyword.IsSolid "UNIQUE"),
    Keyword.occurs_trimEnd (by decide : Keyword.IsSolid "SEARCH"),
    Keyword.occurs_trimEnd (by decide : Keyword.IsSolid "FULLTEXT"),
    Keyword.occurs_trimEnd (by decide : Keyword.IsSolid "HNSW"),
    Keyword.occurs_trimEnd (by decide : Keyword.IsSolid "MTREE")]

theorem event_trimEnd (statement : Text) (head : Head.Owned) :
    event statement { head with body := trimEnd head.body } = event statement head := by
  have action : Clause.body? "THEN" ["COMMENT"] (trimEnd head.body) =
      Clause.body? "THEN" ["COMMENT"] head.body := Clause.body?_trimEnd (by decide) (by decide) _
  have condition : Clause.body? "WHEN" ["THEN"] (trimEnd head.body) =
      Clause.body? "WHEN" ["THEN"] head.body := Clause.body?_trimEnd (by decide) (by decide) _
  simp only [event, action, condition]

end Statement

end SchemaDrift
