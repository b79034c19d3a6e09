import SchemaDrift.Proofs.Statement.ClauseOrder
import SchemaDrift.Proofs.Statement.Occurrence

namespace SchemaDrift

/-!
# Words that clauses take in

The text of a clause ends at the nearest word that starts another clause, so none of these words
stands in it. `FLEXIBLE` counts wherever it stands but ends no clause: behind the word of a clause
it is taken into the text.
-/

namespace Clause

open Keyword

variable {keyword word k t b : Text} {terminators : List Text}

/-- Cleaning takes away nothing but characters that may stand beside a keyword. -/
theorem exists_clean_surrounded (t : Text) : ∃ r s, t = r ++ (clean t ++ s) ∧
    (∀ c ∈ r, isEdge (some c) = true) ∧ ∀ c ∈ s, isEdge (some c) = true := by
  obtain ⟨s₁, h₁, hs₁⟩ := Text.exists_dropEndWhile_append Text.isBlank (Text.trimStart t)
  obtain ⟨s₂, h₂, hs₂⟩ := Text.exists_dropEndWhile_append (· == ';') (Text.trim t)
  obtain ⟨s₃, h₃, hs₃⟩ :=
    Text.exists_dropEndWhile_append Text.isBlank (Text.dropEndWhile (· == ';') (Text.trim t))
  refine ⟨t.takeWhile Text.isBlank, s₃ ++ (s₂ ++ s₁), ?_, ?_, ?_⟩
  · calc t = t.takeWhile Text.isBlank ++ Text.trimStart t := List.takeWhile_append_dropWhile.symm
      _ = t.takeWhile Text.isBlank ++ (Text.trim t ++ s₁) := congrArg _ h₁
      _ = t.takeWhile Text.isBlank ++ (clean t ++ s₃ ++ s₂ ++ s₁) := by
        rw [show Text.trim t = clean t ++ s₃ ++ s₂ from h₂.trans (congrArg (· ++ s₂) h₃)]
      _ = _ := by simp only [List.append_assoc]
  · exact fun c hc => Statement.isEdge_of_isBlank (List.mem_takeWhile_imp hc)
  · simp only [List.forall_mem_append]
    exact ⟨fun c hc => Statement.isEdge_of_isBlank (hs₃ c hc),
      fun c hc => by simp [isEdge, beq_iff_eq.mp (hs₂ c hc)],
      fun c hc => Statement.isEdge_of_isBlank (hs₁ c hc)⟩

theorem free_clean (hk : IsSolid k) (t : Text) : Free k (clean t) ↔ Free k t := by
  obtain ⟨r, s, ht, hr, hs⟩ := exists_clean_surrounded t
  have h := free_surrounded (t := clean t) hk hr hs
  rw [← ht] at h
  exact h.symm

theorem body?_eq_some_iff : body? keyword terminators t = some b ↔
    ∃ front rest, cut? keyword none t = some (front, rest) ∧
      b = clean (upTo (terminators.filter (· != keyword)) none rest) ∧ b ≠ [] := by
  unfold body?
  cases cut? keyword none t with
  | none => simp
  | some cut =>
    simp only [List.isEmpty_iff, Option.some.injEq]
    constructor
    · split
      · rintro ⟨⟩
      · rename_i hne
        rintro ⟨⟩
        exact ⟨cut.1, cut.2, rfl, rfl, hne⟩
    · rintro ⟨front, rest, rfl, rfl, hne⟩
      rw [if_neg hne]

/-- Whether the word stands alone behind the first place of the keyword, with none of the
terminators in between. -/
def TakesIn (terminators : List Text) (keyword word t : Text) : Prop :=
  ∃ front between back, t = front ++ (keyword ++ (between ++ (word ++ back))) ∧
    (Free keyword front ∧ isEdge front.getLast? = true) ∧
    (between ≠ [] ∧ isEdge between.head? = true ∧ isEdge between.getLast? = true) ∧
    isEdge back.head? = true ∧ ∀ k ∈ terminators, k ≠ keyword → Free k between

theorem mem_filter_ne : k ∈ terminators.filter (· != keyword) ↔ k ∈ terminators ∧ k ≠ keyword := by
  rw [List.mem_filter, bne_iff_ne]

section

variable (hterminators : ∀ k ∈ terminators, IsSolid k)
include hterminators

/-- No text of a clause has the words standing alone that end it. -/
theorem free_body? (h : body? keyword terminators t = some b) (hk : k ∈ terminators)
    (hne : k ≠ keyword) : Free k b := by
  obtain ⟨front, rest, -, rfl, -⟩ := body?_eq_some_iff.mp h
  have solid := hterminators k hk
  rw [free_clean solid]
  exact free_upTo (mem_filter_ne.mpr ⟨hk, hne⟩) solid rest

variable (hkeyword : IsSolid keyword)
include hkeyword

/-- A word that ends no clause stands alone in the text of the clause that takes it in. -/
theorem exists_body?_of_takesIn (hword : IsSolid word) (hm : word ∉ terminators)
    (h : TakesIn terminators keyword word t) :
    ∃ b, body? keyword terminators t = some b ∧ ¬ Free word b := by
  obtain ⟨front, between, back, ht, ⟨hfront, hlast⟩, ⟨hne, hhead, hedge⟩, hback, hfree⟩ := h
  have gap : isEdge (between ++ (word ++ back)).head? = true := by
    rwa [List.head?_append_of_ne_nil _ hne]
  have hcut := (cut?_eq_some_iff hkeyword).mpr ⟨ht, hfront, hlast, gap⟩
  obtain ⟨m, hu, hm⟩ := exists_upTo_of_stands
    (fun k hk => hterminators k (mem_filter_ne.mp hk).1) hword (fun h => hm (mem_filter_ne.mp h).1)
    (fun k hk => hfree k (mem_filter_ne.mp hk).1 (mem_filter_ne.mp hk).2) hedge hback
  have stands : ¬ Free word (clean (between ++ (word ++ m))) := by
    rw [free_clean hword]
    exact (not_free_iff hword).mpr ⟨between, m, rfl, hedge, hm⟩
  refine ⟨_, body?_eq_some_iff.mpr ⟨front, _, hcut, by rw [hu], fun hnil => ?_⟩, stands⟩
  rw [hnil] at stands
  exact stands rfl

theorem takesIn_of_not_free (hword : IsSolid word) (h : body? keyword terminators t = some b)
    (hb : ¬ Free word b) : TakesIn terminators keyword word t := by
  obtain ⟨front, rest, hcut, rfl, -⟩ := body?_eq_some_iff.mp h
  rw [free_clean hword] at hb
  obtain ⟨between, m, hu, hedge, hm⟩ := (not_free_iff hword).mp hb
  obtain ⟨s, rfl, hback⟩ := exists_of_upTo_eq hword hu hm
  obtain ⟨ht, hfront, hlast, hrest⟩ := (cut?_eq_some_iff hkeyword).mp hcut
  have hne : between ≠ [] := by
    rintro rfl
    obtain ⟨c, w, rfl⟩ := List.exists_cons_of_ne_nil hword.1
    rw [List.nil_append, List.cons_append, List.head?_cons, hword.2 c List.mem_cons_self] at hrest
    cases hrest
  rw [List.head?_append_of_ne_nil _ hne] at hrest
  refine ⟨front, between, m ++ s, ht, ⟨hfront, hlast⟩, ⟨hne, hrest, hedge⟩, hback,
    fun k hk hkne => ?_⟩
  have solid := hterminators k hk
  have free := free_upTo (mem_filter_ne.mpr ⟨hk, hkne⟩) solid (between ++ (word ++ (m ++ s)))
  rw [hu] at free
  exact free_of_append solid hedge free

theorem not_free_body?_iff (hword : IsSolid word) (hm : word ∉ terminators)
    (h : body? keyword terminators t = some b) :
    ¬ Free word b ↔ TakesIn terminators keyword word t := by
  refine ⟨takesIn_of_not_free hterminators hkeyword hword h, fun htakes => ?_⟩
  obtain ⟨b', hb', hfree⟩ := exists_body?_of_takesIn hterminators hkeyword hword hm htakes
  cases h.symm.trans hb'
  exact hfree

end

end Clause

namespace Statement

open Keyword

variable {statement : Text} {f : Field} {head : Head.Owned}

/-- The texts of a field that come from clauses, each with the word of its clause. -/
def clauseTexts (f : Field) : List (Text × Option Text) :=
  [("TYPE", some f.type), ("DEFAULT", f.default), ("VALUE", f.value), ("ASSERT", f.assertion)]

theorem word_mem_of_clauseTexts : ∀ c ∈ clauseTexts f, c.1 ∈ fieldClauses := by
  simp only [clauseTexts, List.forall_mem_cons]
  decide

/-- Each text is the body of the clause, or stands for a type that is left out. -/
theorem mem_clauseTexts_field {keyword t : Text}
    (h : (keyword, some t) ∈ clauseTexts (field head)) :
    Clause.body? keyword fieldClauses head.body = some t ∨
      t = "any" ∧ Clause.body? keyword fieldClauses head.body = none := by
  simp only [clauseTexts, field, List.mem_cons, List.not_mem_nil, Prod.mk.injEq, or_false] at h
  rcases h with ⟨rfl, hb⟩ | ⟨rfl, hb⟩ | ⟨rfl, hb⟩ | ⟨rfl, hb⟩
  · cases hs : Clause.body? "TYPE" fieldClauses head.body <;> simp_all
  all_goals exact .inl hb.symm

/-- In the texts of a field that is read, no word of the reader stands alone but the own word of the
clause and a `FLEXIBLE` that the clause takes in. -/
theorem not_free_clauseTexts_iff (h : readField statement = .ok f) :
    ∃ head, Head.field? statement = some head ∧
      ∀ c ∈ clauseTexts f, ∀ t ∈ c.2, ∀ k ∈ reserved, k ≠ c.1 →
        (¬ Free k t ↔ k = "FLEXIBLE" ∧ Clause.TakesIn fieldClauses c.1 "FLEXIBLE" head.body) := by
  have solid : ∀ k ∈ fieldClauses, IsSolid k := fun k hk =>
    FieldClauses.solid_reserved k (List.mem_cons_of_mem _ hk)
  have flexible : IsSolid "FLEXIBLE" ∧ ("FLEXIBLE" : Text) ∉ fieldClauses := by decide
  unfold readField at h
  cases hhead : Head.field? statement with
  | none =>
    rw [hhead] at h
    cases h
  | some head =>
    rw [hhead] at h
    cases h
    refine ⟨head, rfl, ?_⟩
    rintro ⟨keyword, _⟩ hc t ⟨⟩ k hk hne
    have hkeyword := solid keyword (word_mem_of_clauseTexts _ hc)
    rcases mem_clauseTexts_field hc with hbody | ⟨rfl, hbody⟩
    · have iff := Clause.not_free_body?_iff solid hkeyword flexible.1 flexible.2 hbody
      refine ⟨fun hfree => ?_, fun htakes => htakes.1 ▸ iff.mpr htakes.2⟩
      rcases List.mem_cons.mp hk with rfl | hk
      · exact ⟨rfl, iff.mp hfree⟩
      · exact absurd (Clause.free_body? solid hbody hk hne) hfree
    · -- A type that is left out has no clause that could take in a word.
      have any : ∀ k ∈ reserved, Free k "any" := by decide
      refine ⟨fun hfree => absurd (any k hk) hfree, fun htakes => ?_⟩
      obtain ⟨b, hb, -⟩ :=
        Clause.exists_body?_of_takesIn solid hkeyword flexible.1 flexible.2 htakes.2
      cases hbody.symm.trans hb

/-- A definition with `FLEXIBLE` behind the type. -/
def metaStatement : Text := "DEFINE FIELD meta ON user TYPE object FLEXIBLE"

theorem readField_meta : readField metaStatement =
    .ok { name := "meta", type := "object FLEXIBLE", flexible := true } := by
  decide +kernel

theorem not_free_clauseTexts_meta :
    readField metaStatement =
        .ok { name := "meta", type := "object FLEXIBLE", flexible := true } ∧
      ∃ head, Head.field? metaStatement = some head ∧
        (¬ Free "FLEXIBLE" "object FLEXIBLE" ↔
          ("FLEXIBLE" : Text) = "FLEXIBLE" ∧
            Clause.TakesIn fieldClauses "TYPE" "FLEXIBLE" head.body) := by
  obtain ⟨head, hhead, h⟩ := not_free_clauseTexts_iff readField_meta
  exact ⟨readField_meta, head, hhead,
    h ("TYPE", some "object FLEXIBLE") List.mem_cons_self _ rfl _ (by decide) (by decide)⟩

/-- A word of the reader can stand in the text of another clause. -/
theorem not_forall_free_clauseTexts :
    ¬ ∀ (statement : Text) (f : Field), readField statement = .ok f →
    ∀ c ∈ clauseTexts f, ∀ t ∈ c.2, ∀ k ∈ reserved, k ≠ c.1 → Free k t := by
  intro h
  have free : Free "FLEXIBLE" "object FLEXIBLE" :=
    h metaStatement _ readField_meta ("TYPE", some "object FLEXIBLE") List.mem_cons_self _ rfl _
      (by decide) (by decide)
  revert free
  decide

end Statement

end SchemaDrift
