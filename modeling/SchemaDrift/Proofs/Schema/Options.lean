import SchemaDrift.Proofs.Change.About
import SchemaDrift.Proofs.Schema.Canonical

namespace SchemaDrift.TypeExpr

/-!
# Options in unions

An option is the union of `none` and its members. The normal form knows this of an option that is a
whole type or a whole argument. Beside another member of a union the option stays, so the two
spellings have different normal forms there, in whatever order the members are written.
-/

variable {s t : Text} {before after ts vs : List Term}

theorem IsSound.of_option (h : IsSound (before ++ .apply "option" [ts] :: after)) : IsSound ts :=
  (h.members (.apply "option" [ts]) (by simp)).arguments ts (List.mem_singleton_self ts)

/-- The normal form of an option is the option of the normal form. -/
theorem Term.normal_option (h : (Term.apply "option" [ts]).IsSound) :
    (Term.apply "option" [ts]).normal = application "option" [typeNormal ts] := by
  rw [Term.normal_apply h, List.map_singleton]
  rcases applyName_cases "option" [typeNormal ts] with ⟨hname, -, -⟩ | ⟨-, heq⟩
  · exact absurd hname (by decide)
  · exact heq

/-- A union of `none` and the members of another one, with the members of the option in the middle
set free. -/
structure Spreads (before ts after vs : List Term) : Prop where
  none : vs.any Term.isNone = true
  others : (vs.filter (!·.isNone)).Perm (before ++ ts ++ after)

theorem Spreads.isSound (h : Spreads before ts after vs)
    (hs : IsSound (before ++ .apply "option" [ts] :: after)) : IsSound vs where
  ne_nil := by
    rintro rfl
    exact absurd h.none (by simp)
  members u hu := by
    cases hnone : u.isNone with
    | true =>
      rw [Term.isNone_iff.mp hnone]
      exact .word isWord_none
    | false =>
      have other := h.others.mem_iff.mp (List.mem_filter.mpr ⟨hu, by simp [hnone]⟩)
      rcases List.mem_append.mp other with other | other
      · rcases List.mem_append.mp other with other | other
        · exact hs.members u (List.mem_append_left _ other)
        · exact hs.of_option.members u other
      · exact hs.members u (List.mem_append_right _ (List.mem_cons_of_mem _ other))

/-- With the members of the option set free the type is an option of all of them. -/
theorem Spreads.typeNormal_eq (h : Spreads before ts after vs)
    (hs : IsSound (before ++ .apply "option" [ts] :: after)) : typeNormal vs =
      application "option" [Text.join "|" ((vs.filter (!·.isNone)).map Term.normal)] := by
  refine (h.isSound hs).typeNormal_of_none ?_ h.none
  -- Beside `none` there is a member of the option.
  have others : (vs.filter (!·.isNone)).length + (vs.filter Term.isNone).length = vs.length := by
    have := List.length_eq_length_filter_add (l := vs) Term.isNone
    omega
  have one : 0 < (vs.filter Term.isNone).length := by
    obtain ⟨u, hu, hnone⟩ := List.any_eq_true.mp h.none
    exact List.length_pos_of_mem (List.mem_filter.mpr ⟨hu, hnone⟩)
  have inner := List.length_pos_iff.mpr hs.of_option.ne_nil
  have length := h.others.length_eq
  simp only [List.length_append] at length
  omega

theorem IsSound.whole_normal (h : IsSound ts) :
    ∀ m ∈ ts.map Term.normal, Balanced 0 m ∧ Whole '|' m := by
  intro m hm
  obtain ⟨u, hu, rfl⟩ := List.mem_map.mp hm
  have normal := (h.members u hu).isNormal
  exact ⟨normal.settled.balanced, normal.whole⟩

/-- Beside another member the option is not exchanged for its members and `none`. -/
theorem Spreads.typeNormal_ne (h : Spreads before ts after vs)
    (hs : IsSound (before ++ .apply "option" [ts] :: after))
    (hothers : (before ++ after).any Term.isNone = false) (hne : before ++ after ≠ []) :
    typeNormal (before ++ .apply "option" [ts] :: after) ≠ typeNormal vs := by
  have plain : (before ++ Term.apply "option" [ts] :: after).any Term.isNone = false := by
    simpa [List.any_append, Term.isNone] using hothers
  have many : (splitTop '|' (typeNormal (before ++ .apply "option" [ts] :: after))).length ≠ 1 := by
    have parts : splitTop '|' (Text.join "|" ((before ++ .apply "option" [ts] :: after).map
        Term.normal)) = _ := splitTop_join (by simp) hs.whole_normal
    have := List.length_pos_iff.mpr hne
    rw [hs.typeNormal_of_plain (.inr plain), parts]
    simp only [List.length_map, List.length_append, List.length_cons] at this ⊢
    omega
  have one : Whole '|' (typeNormal vs) := by
    rw [h.typeNormal_eq hs]
    refine whole_application (by decide) (balanced_of_forall (by decide))
      (whole_of_not_mem (by decide)) fun a ha => ?_
    rw [List.mem_singleton.mp ha]
    refine balanced_join (by decide) fun m hm => ((h.isSound hs).whole_normal m ?_).1
    exact List.map_subset _ (List.filter_subset_self _) hm
  intro he
  rw [he, one] at many
  exact many rfl

/-- An option that stands alone is the union of `none` and its members, in their order. -/
theorem Spreads.typeNormal_eq_iff (h : Spreads [] ts [] vs) (hs : IsSound [.apply "option" [ts]])
    (hts : ts.any Term.isNone = false) : typeNormal [.apply "option" [ts]] = typeNormal vs ↔
      ts.map Term.normal = (vs.filter (!·.isNone)).map Term.normal := by
  have inner : IsSound ts := (hs.members _ (List.mem_singleton_self _)).arguments ts
    (List.mem_singleton_self ts)
  have others : vs.filter (!·.isNone) ≠ [] := by
    intro he
    have := h.others
    rw [he] at this
    exact inner.ne_nil (by simpa using this.nil_eq)
  have whole : ∀ m ∈ (vs.filter (!·.isNone)).map Term.normal, Balanced 0 m ∧ Whole '|' m :=
    fun m hm => (h.isSound hs).whole_normal m (List.map_subset _ (List.filter_subset_self _) hm)
  rw [hs.typeNormal_of_plain (.inl (by simp)), List.map_singleton, Text.join_singleton,
    Term.normal_option (hs.members _ (List.mem_singleton_self _)),
    inner.typeNormal_of_plain (.inr hts), h.typeNormal_eq hs]
  constructor
  · intro he
    have joined : Text.join "|" (ts.map Term.normal) =
        Text.join "|" ((vs.filter (!·.isNone)).map Term.normal) := by
      simpa [application] using he
    exact join_inj (by simpa using inner.ne_nil) (by simpa using others)
      inner.whole_normal whole joined
  · rintro he
    rw [he]

/-- A union with an option among its members has the normal form of the union in which the members
of the option are set free, `none` beside them, only if it has no other member, and if both have the
members in one order. In every other case a comparison reports a change of the type. -/
theorem normal_eq_spread_iff (hs : IsSound (before ++ .apply "option" [ts] :: after))
    (hts : ts.any Term.isNone = false) (hothers : (before ++ after).any Term.isNone = false)
    (h : Spreads before ts after vs)
    (ht : compact s = typeText (before ++ .apply "option" [ts] :: after))
    (ht' : compact t = typeText vs) :
    (normal s = normal t ↔ before ++ after = [] ∧
      ts.map Term.normal = (vs.filter (!·.isNone)).map Term.normal) ∧
    ∀ (table : Text) (f g : Field), f.type = s → g.type = t →
      ((∃ c ∈ Change.ofField table f g, c.kind = .fieldTypeChanged) ↔ ¬ (before ++ after = [] ∧
        ts.map Term.normal = (vs.filter (!·.isNone)).map Term.normal)) := by
  have forms : normal s = normal t ↔ before ++ after = [] ∧
      ts.map Term.normal = (vs.filter (!·.isNone)).map Term.normal := by
    rw [normal_eq, normal_eq, ht, ht']
    by_cases hne : before ++ after = []
    · obtain ⟨rfl, rfl⟩ := List.append_eq_nil_iff.mp hne
      exact (h.typeNormal_eq_iff hs hts).trans ⟨fun he => ⟨rfl, he⟩, And.right⟩
    · exact ⟨fun he => absurd he (h.typeNormal_ne hs hothers hne), fun he => absurd he.1 hne⟩
  refine ⟨forms, fun table f g hf hg => ?_⟩
  rw [Change.exists_fieldTypeChanged_iff, hf, hg, ne_eq, forms]

theorem isSound_option_beside :
    IsSound ([] ++ .apply "option" [[.word "int"]] :: [.word "string"]) := by
  have option : Term.IsSound (.apply "option" [[.word "int"]]) := by
    rw [isSound_apply_iff (by decide) (by decide)]
    exact ⟨by simp, fun ts hts => List.mem_singleton.mp hts ▸ isSound_singleton (.word (by decide))⟩
  refine ⟨by simp, ?_⟩
  simp only [List.nil_append, List.forall_mem_cons]
  exact ⟨option, .word (by decide), by simp⟩

theorem compact_option_beside : compact "option<int> | string" =
    typeText ([] ++ .apply "option" [[.word "int"]] :: [.word "string"]) := by
  simp only [typeText, List.map, Term.text_apply, Term.text_word, List.nil_append]
  decide

/-- An optional number or a text, with the option among the members and without it. -/
theorem normal_eq_spread_iff_number :
    IsSound ([] ++ .apply "option" [[.word "int"]] :: [.word "string"]) ∧
      [Term.word "int"].any Term.isNone = false ∧
      ([] ++ [Term.word "string"]).any Term.isNone = false ∧
      Spreads [] [.word "int"] [.word "string"] [.word "none", .word "int", .word "string"] ∧
      compact "option<int> | string" =
        typeText ([] ++ .apply "option" [[.word "int"]] :: [.word "string"]) ∧
      compact "none | int | string" = typeText [.word "none", .word "int", .word "string"] ∧
      ((normal "option<int> | string" = normal "none | int | string" ↔
        [] ++ [Term.word "string"] = [] ∧
          [Term.word "int"].map Term.normal =
            ([Term.word "none", .word "int", .word "string"].filter
            (!·.isNone)).map Term.normal) ∧
        ∀ (table : Text) (f g : Field), f.type = "option<int> | string" →
          g.type = "none | int | string" →
          ((∃ c ∈ Change.ofField table f g, c.kind = .fieldTypeChanged) ↔
            ¬ ([] ++ [Term.word "string"] = [] ∧ [Term.word "int"].map Term.normal =
              ([Term.word "none", .word "int", .word "string"].filter (!·.isNone)).map
                Term.normal))) := by
  have spread : Spreads [] [.word "int"] [.word "string"]
      [.word "none", .word "int", .word "string"] :=
    ⟨by decide, by simp [Term.isNone]⟩
  have written : compact "none | int | string" =
      typeText [.word "none", .word "int", .word "string"] := by
    simp only [typeText, List.map, Term.text_word]
    decide
  exact ⟨isSound_option_beside, by decide, by decide, spread, compact_option_beside, written,
    normal_eq_spread_iff isSound_option_beside (by decide) (by decide) spread compact_option_beside
      written⟩

/-- No order of its members makes the union the same type for the normal form. -/
theorem not_normal_eq_spread : ¬ ∃ vs, Spreads [] [.word "int"] [.word "string"] vs ∧
    normal "option<int> | string" = normal (typeText vs) := by
  rintro ⟨vs, spread, same⟩
  have sound := spread.isSound isSound_option_beside
  rw [normal_eq, normal_eq, compact_option_beside, compact_eq_self sound.stands.blankless] at same
  exact spread.typeNormal_ne isSound_option_beside (by decide) (by simp) same

end SchemaDrift.TypeExpr
