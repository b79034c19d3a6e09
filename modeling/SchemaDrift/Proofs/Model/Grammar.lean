import SchemaDrift.Proofs.Model.Spelling

namespace SchemaDrift.Declaration

open TypeExpr

/-!
# The grammar of types

A type is an atom, a name with arguments, or a union. The normal form of such a type is read back,
unless an option has several arguments.
-/

/-- Whether the text begins like an array, a set or an option with arguments. -/
def IsHolder (t : Text) : Prop :=
  ("array<" : Text) <+: t ∨ ("set<" : Text) <+: t ∨ ("option<" : Text) <+: t

/-- Whether the text is a type in which each option has as many arguments as `arity` allows. In a
union an array, a set or an option stands alone or with `none`. -/
inductive IsType (arity : Nat → Prop) : Text → Prop
  | atom {a : Text} (h : IsAtom a) : IsType arity a
  | apply {name : Text} {args : List Text} (hn : IsAtom name)
      (hname : name ≠ "array" ∧ name ≠ "set") (harity : name = "option" → arity args.length)
      (hne : args ≠ []) (h : ∀ a ∈ args, IsType arity a) : IsType arity (application name args)
  | container (kind : Container) (max : Option Nat) (hmax : ∀ n ∈ max, n < boundLimit) {e : Text}
      (h : IsType arity e) : IsType arity (application kind.keyword (e :: boundArgument max))
  | union {ts : List Text} (hne : ts ≠ []) (h : ∀ t ∈ ts, IsType arity t)
      (hwhole : ∀ t ∈ ts, Whole '|' t)
      (halone : (∀ t ∈ ts, ¬ IsHolder t) ∨ ∃ t, ts.filter (· != ("none" : Text)) = [t]) :
      IsType arity (Text.join "|" ts)

/-! ## Types that hold nothing -/

section Holder

variable {t name : Text} {args : List Text}

theorem prefix_of_append_cons {p a b : Text} {c : Char} (hc : c ∉ p) (h : p <+: a ++ c :: b) :
    p <+: a := by
  rcases List.prefix_or_prefix_of_prefix h (List.prefix_append a (c :: b)) with h' | ⟨s, rfl⟩
  · exact h'
  · have rest : s <+: c :: b := (List.prefix_append_right_inj a).mp h
    cases s with
    | nil => simp
    | cons d s =>
      obtain ⟨rfl, -⟩ := List.cons_prefix_cons.mp rest
      exact absurd (by simp) hc

theorem not_isHolder_join {m n : Text} (h : ¬ IsHolder m) (rest : List Text) :
    ¬ IsHolder (Text.join "|" (m :: n :: rest)) := by
  rw [Text.join_cons_cons]
  rintro (hp | hp | hp)
  · exact h (.inl (prefix_of_append_cons (by decide) hp))
  · exact h (.inr (.inl (prefix_of_append_cons (by decide) hp)))
  · exact h (.inr (.inr (prefix_of_append_cons (by decide) hp)))

theorem prefix_application_iff {p : Text} (hp : '<' ∉ p) (hn : '<' ∉ name) :
    p ++ ['<'] <+: application name args ↔ name = p := by
  constructor
  · rintro ⟨s, hs⟩
    have split : p ++ '<' :: s = name ++ '<' :: (Text.join "," args ++ ['>']) := by
      simpa [application] using hs
    have cut := congrArg (Text.cutAt ['<']) split
    rw [cutAt_char hp, cutAt_char hn] at cut
    exact (Prod.mk.inj (Option.some.inj cut)).1.symm
  · rintro rfl
    exact ⟨Text.join "," args ++ ['>'], by simp [application]⟩

theorem isHolder_application_iff (hn : '<' ∉ name) :
    IsHolder (application name args) ↔ name = "array" ∨ name = "set" ∨ name = "option" := by
  have opened (p : Text) (hp : '<' ∉ p) : p ++ ['<'] <+: application name args ↔ name = p :=
    prefix_application_iff hp hn
  exact or_congr (opened "array" (by decide))
    (or_congr (opened "set" (by decide)) (opened "option" (by decide)))

theorem not_isHolder_of_isAtom (h : IsAtom t) : ¬ IsHolder t := by
  have hm : '<' ∉ t := h.not_mem (by decide)
  rintro (hp | hp | hp)
  · exact hm (hp.subset (by decide))
  · exact hm (hp.subset (by decide))
  · exact hm (hp.subset (by decide))

/-- A settled type that does not begin like one that holds another is read as it stands. -/
theorem readable_of_not_isHolder (hs : Settled t) (h : ¬ IsHolder t) : Readable t := by
  cases hc : container? t with
  | none =>
    refine .simple hs ?_ hc
    rw [Option.eq_none_iff_forall_ne_some]
    intro args ha
    refine h (.inr (.inr ⟨args ++ ['>'], ?_⟩))
    rw [argumentOf?_eq_some_iff.mp ha]
    simp
  | some found =>
    obtain ⟨kind, args⟩ := found
    cases args with
    | none =>
      rw [eq_keyword_of_container? hc]
      exact .bare kind
    | some args =>
      have form := container?_eq_some_iff.mp hc
      refine absurd ?_ h
      cases kind with
      | array => exact .inl ⟨args ++ ['>'], by rw [form]; simp [Container.keyword]⟩
      | set => exact .inr (.inl ⟨args ++ ['>'], by rw [form]; simp [Container.keyword]⟩)

end Holder

/-! ## Unions -/

theorem whole_join {sep other : Char} (hb : bracket other = 0) (hne : other ≠ sep)
    {parts : List Text} (h : ∀ p ∈ parts, Balanced 0 p ∧ Whole sep p) :
    Whole sep (Text.join [other] parts) := by
  induction parts with
  | nil => rfl
  | cons p parts ih =>
    obtain ⟨hp, hw⟩ := h p List.mem_cons_self
    have rest := ih fun q hq => h q (List.mem_cons_of_mem p hq)
    cases parts with
    | nil => simpa using hw
    | cons q parts =>
      rw [Text.join_cons_cons]
      refine Whole.append hp hw (Whole.append ?_ ?_ rest)
      · exact balanced_of_forall (by simpa using hb)
      · exact whole_of_not_mem (by simpa using Ne.symm hne)

theorem settled_join {ms : List Text} (hne : ms ≠ []) (h : ∀ m ∈ ms, Settled m ∧ Whole '|' m)
    (hnone : ms.length = 1 ∨ ("none" : Text) ∉ ms) : Settled (Text.join "|" ms) where
  blankless := by
    intro c hc
    rcases Text.mem_join hc with hc | ⟨m, hm, hc⟩
    · rw [List.mem_singleton.mp hc]
      decide
    · exact (h m hm).1.blankless c hc
  balanced := balanced_join (by decide) fun m hm => (h m hm).1.balanced
  whole := whole_join (by decide) (by decide) fun m hm => ⟨(h m hm).1.balanced, (h m hm).1.whole⟩
  normal := by
    have parts : splitTop '|' (Text.join "|" ms) = ms :=
      splitTop_join hne fun m hm => ⟨(h m hm).1.balanced, (h m hm).2⟩
    have same : ms.map normalTerm = ms := by
      conv_rhs => rw [← List.map_id ms]
      refine List.map_congr_left fun m hm => ?_
      rw [← normalUnion_of_whole (h m hm).2, (h m hm).1.normal, id]
    rw [normalUnion_eq, parts, same, joinTerms, if_neg]
    rintro ⟨hlen, hm⟩
    rcases hnone with h1 | hn
    · omega
    · exact hn (by simpa using hm)

theorem readable_join {ms : List Text}
    (h : ∀ m ∈ ms, Readable m ∧ Whole '|' m) (hnone : ms.length = 1 ∨ ("none" : Text) ∉ ms)
    (halone : (∀ m ∈ ms, ¬ IsHolder m) ∨ ms.length ≤ 1) : Readable (Text.join "|" ms) := by
  match ms, h, hnone, halone with
  | [], _, _, _ =>
    exact readable_of_not_isHolder (IsAtom.settled (a := []) (by decide))
      (not_isHolder_of_isAtom (by decide))
  | [m], h, _, _ => simpa using (h m List.mem_cons_self).1
  | m :: n :: rest, h, hnone, halone =>
    have settled := settled_join (by simp) (fun m hm => ⟨(h m hm).1.settled, (h m hm).2⟩) hnone
    refine readable_of_not_isHolder settled (not_isHolder_join ?_ rest)
    rcases halone with ha | ha
    · exact ha m List.mem_cons_self
    · simp only [List.length_cons] at ha
      omega

/-! ## Normal forms of types -/

/-- What the normal form of a type keeps of it. -/
structure HasForm (t : Text) : Prop where
  balanced : Balanced 0 t
  whole : Whole ',' t
  readable : Readable (normalUnion t)
  single : Whole '|' t → Whole '|' (normalUnion t)
  named : Whole '|' t → normalUnion t = "none" → t = "none"
  plain : Whole '|' t → ¬ IsHolder t → ¬ IsHolder (normalUnion t)

variable {arity : Nat → Prop}

theorem hasForm_atom {a : Text} (h : IsAtom a) : HasForm a where
  balanced := h.settled.balanced
  whole := h.settled.whole
  readable := by
    rw [h.settled.normal]
    exact readable_of_not_isHolder h.settled (not_isHolder_of_isAtom h)
  single hw := by rwa [h.settled.normal]
  named _ hn := by rwa [h.settled.normal] at hn
  plain _ hp := by rwa [h.settled.normal]

theorem hasForm_apply {name : Text} {args : List Text} (hn : IsAtom name)
    (hname : name ≠ "array" ∧ name ≠ "set") (harity : name = "option" → args.length = 1)
    (hne : args ≠ []) (h : ∀ a ∈ args, HasForm a) : HasForm (application name args) := by
  have parts : ∀ a ∈ args, Balanced 0 a ∧ Whole ',' a := fun a ha =>
    ⟨(h a ha).balanced, (h a ha).whole⟩
  have normal : normalUnion (application name args) = application name (args.map normalUnion) := by
    rw [normalUnion_application hn hne parts, applyName, if_neg]
    · simp [application]
    · rintro ⟨ha | hs, -⟩
      · exact hname.1 ha
      · exact hname.2 hs
  have hopen : '<' ∉ name := hn.not_mem (by decide)
  have inner : ∀ a ∈ args.map normalUnion, Settled a := by
    intro a ha
    obtain ⟨b, hb, rfl⟩ := List.mem_map.mp ha
    exact (h b hb).readable.settled
  have whole : Whole '|' (application name (args.map normalUnion)) :=
    whole_application (by decide) hn.settled.balanced
      (whole_of_not_mem (hn.not_mem (by decide))) fun a ha => (inner a ha).balanced
  refine ⟨balanced_application hn.settled.balanced fun a ha => (parts a ha).1,
    whole_application (by decide) hn.settled.balanced hn.settled.whole fun a ha => (parts a ha).1,
    ?_, fun _ => normal ▸ whole, fun _ he => ?_, fun _ hp => ?_⟩
  · rw [normal]
    by_cases ho : name = "option"
    · obtain ⟨a, rfl⟩ := List.length_eq_one_iff.mp (harity ho)
      rw [ho]
      exact .option (h a List.mem_cons_self).readable
    · refine readable_of_not_isHolder
        (settled_application hn (by simpa using hne) inner fun he => ?_) ?_
      · exact absurd he (not_or.mpr hname)
      · rw [isHolder_application_iff hopen]
        exact not_or.mpr ⟨hname.1, not_or.mpr ⟨hname.2, ho⟩⟩
  · have : '<' ∈ ("none" : Text) := by
      rw [← he, normal]
      simp [application]
    exact absurd this (by decide)
  · rw [isHolder_application_iff hopen] at hp
    rwa [normal, isHolder_application_iff hopen]

theorem isHolder_container (kind : Container) (args : List Text) :
    IsHolder (application kind.keyword args) := by
  rw [isHolder_application_iff ((isAtom_keyword kind).not_mem (by decide))]
  cases kind <;> simp [Container.keyword]

theorem hasForm_container (kind : Container) (max : Option Nat)
    (hmax : ∀ n ∈ max, n < boundLimit) {e : Text} (h : HasForm e) :
    HasForm (application kind.keyword (e :: boundArgument max)) := by
  have atom := isAtom_keyword kind
  have parts := whole_arguments h.balanced h.whole max
  have normal : normalUnion (application kind.keyword (e :: boundArgument max)) =
      applyName kind.keyword (normalUnion e :: boundArgument max) := by
    rw [normalUnion_application atom (by simp) parts, List.map_cons,
      map_normalUnion_boundArgument]
  have readable : Readable (applyName kind.keyword (normalUnion e :: boundArgument max)) ∧
      Whole '|' (applyName kind.keyword (normalUnion e :: boundArgument max)) ∧
      applyName kind.keyword (normalUnion e :: boundArgument max) ≠ "none" := by
    by_cases hany : max = none → normalUnion e ≠ "any"
    · rw [applyName_container kind hany]
      refine ⟨.container kind max h.readable hmax hany, ?_, ?_⟩
      · have inner := whole_arguments h.readable.settled.balanced h.readable.settled.whole max
        exact whole_application (by decide) atom.settled.balanced
          (whole_of_not_mem (atom.not_mem (by decide))) fun a ha => (inner a ha).1
      · intro he
        have : '<' ∈ ("none" : Text) := by
          rw [← he]
          simp [application]
        exact absurd this (by decide)
    · obtain ⟨rfl, he⟩ := not_forall.mp hany
      rw [not_not.mp he, boundArgument, Option.map_none, Option.toList_none, applyName_any]
      exact ⟨.bare kind, whole_of_not_mem (atom.not_mem (by decide)), by cases kind <;> decide⟩
  refine ⟨balanced_application atom.settled.balanced fun a ha => (parts a ha).1,
    whole_application (by decide) atom.settled.balanced atom.settled.whole
      fun a ha => (parts a ha).1, normal ▸ readable.1, fun _ => normal ▸ readable.2.1,
    fun _ he => ?_, fun _ hp => absurd (isHolder_container kind _) hp⟩
  exact absurd (normal ▸ he) readable.2.2

theorem normalUnion_none : normalUnion "none" = "none" :=
  (IsAtom.settled (a := "none") (by decide)).normal

/-- Terms are joined to a type that can be read, `none` among them as an option, if what holds
another type stands alone but for `none`. -/
theorem readable_joinTerms {ms : List Text} (hne : ms ≠ [])
    (hterms : ∀ m ∈ ms, Readable m ∧ Whole '|' m)
    (halone : (∀ m ∈ ms, ¬ IsHolder m) ∨ (ms.filter (· != ("none" : Text))).length = 1) :
    Readable (joinTerms ms) := by
  rw [joinTerms]
  split
  · have form : ("option<" : Text) ++ Text.join "|" (ms.filter (· != ("none" : Text))) ++ ">" =
        application "option" [Text.join "|" (ms.filter (· != ("none" : Text)))] := by
      simp [application]
    rw [form]
    refine .option (readable_join (fun m hm => hterms m (List.mem_filter.mp hm).1)
      (.inr (by simp)) ?_)
    rcases halone with ha | ha
    · exact .inl fun m hm => ha m (List.mem_filter.mp hm).1
    · exact .inr ha.le
  · rename_i hcase
    have length : 0 < ms.length := List.length_pos_iff.mpr hne
    have hnone : ms.length = 1 ∨ ("none" : Text) ∉ ms := by
      by_cases h1 : 1 < ms.length
      · exact .inr fun hm => hcase ⟨h1, by simpa using hm⟩
      · exact .inl (by omega)
    refine readable_join hterms hnone ?_
    rcases hnone with h1 | hn
    · exact .inr h1.le
    · rcases halone with ha | ha
      · exact .inl ha
      · have all : ms.filter (· != ("none" : Text)) = ms :=
          List.filter_eq_self.mpr fun m hm => by
            simpa using fun he : m = "none" => hn (he ▸ hm)
        exact .inr (by rw [← all, ha])

theorem hasForm_union {ts : List Text} (hne : ts ≠ []) (h : ∀ t ∈ ts, HasForm t)
    (hwhole : ∀ t ∈ ts, Whole '|' t)
    (halone : (∀ t ∈ ts, ¬ IsHolder t) ∨ ∃ t, ts.filter (· != ("none" : Text)) = [t]) :
    HasForm (Text.join "|" ts) := by
  have parts : splitTop '|' (Text.join "|" ts) = ts :=
    splitTop_join hne fun t ht => ⟨(h t ht).balanced, hwhole t ht⟩
  have normal : normalUnion (Text.join "|" ts) = joinTerms (ts.map normalUnion) := by
    rw [normalUnion_eq, parts]
    congr 1
    exact List.map_congr_left fun t ht => (normalUnion_of_whole (hwhole t ht)).symm
  have terms : ∀ m ∈ ts.map normalUnion, Readable m ∧ Whole '|' m := by
    intro m hm
    obtain ⟨t, ht, rfl⟩ := List.mem_map.mp hm
    exact ⟨(h t ht).readable, (h t ht).single (hwhole t ht)⟩
  have proper : (ts.map normalUnion).filter (· != ("none" : Text)) =
      (ts.filter (· != ("none" : Text))).map normalUnion := by
    rw [List.filter_map]
    congr 1
    refine List.filter_congr fun t ht => ?_
    have same : normalUnion t = "none" ↔ t = "none" :=
      ⟨(h t ht).named (hwhole t ht), fun he => by rw [he, normalUnion_none]⟩
    simp only [Function.comp, bne, same, beq_eq_decide]
  -- Without `none` what holds another type is alone, and so it is beside `none`.
  have alone : (∀ m ∈ ts.map normalUnion, ¬ IsHolder m) ∨
      ((ts.map normalUnion).filter (· != ("none" : Text))).length = 1 := by
    rcases halone with ha | ⟨t, ht⟩
    · refine .inl fun m hm => ?_
      obtain ⟨t, ht, rfl⟩ := List.mem_map.mp hm
      exact (h t ht).plain (hwhole t ht) (ha t ht)
    · exact .inr (by rw [proper, ht]; rfl)
  have one (hw : Whole '|' (Text.join "|" ts)) : ∃ t, ts = [t] :=
    ⟨_, parts.symm.trans hw⟩
  refine ⟨balanced_join (by decide) fun t ht => (h t ht).balanced,
    whole_join (by decide) (by decide) fun t ht => ⟨(h t ht).balanced, (h t ht).whole⟩,
    ?_, fun hw => ?_, fun hw => ?_, fun hw => ?_⟩
  · rw [normal]
    exact readable_joinTerms (by simpa using hne) terms alone
  · obtain ⟨t, rfl⟩ := one hw
    rw [Text.join_singleton] at hw ⊢
    exact (h t List.mem_cons_self).single hw
  · obtain ⟨t, rfl⟩ := one hw
    rw [Text.join_singleton] at hw ⊢
    exact (h t List.mem_cons_self).named hw
  · obtain ⟨t, rfl⟩ := one hw
    rw [Text.join_singleton] at hw ⊢
    exact (h t List.mem_cons_self).plain hw

/-- A type whose options have one argument has a normal form that is read back. -/
theorem IsType.hasForm {t : Text} (h : IsType (· = 1) t) : HasForm t := by
  induction h with
  | atom h => exact hasForm_atom h
  | apply hn hname harity hne _ ih => exact hasForm_apply hn hname harity hne ih
  | container kind max hmax _ ih => exact hasForm_container kind max hmax ih
  | union hne _ hwhole halone ih => exact hasForm_union hne ih hwhole halone

end SchemaDrift.Declaration
