import SchemaDrift.Proofs.Model.Grammar

namespace SchemaDrift.TypeExpr

open Declaration (whole_join settled_join)

/-!
# Types as trees

A type is a union of terms: words, and names with arguments that are types again. The normal form of
a written type follows its tree, and is its own normal form.
-/

/-- Whether the text has no blanks and no angle brackets, and its separators stand inside of
brackets that it closes. -/
structure IsWord (t : Text) : Prop where
  ne_nil : t ≠ []
  blankless : ∀ c ∈ t, Text.isBlank c = false
  noAngle : ∀ c ∈ t, c ≠ '<' ∧ c ≠ '>'
  balanced : Balanced 0 t
  whole : Whole ',' t ∧ Whole '|' t

instance : (d : Int) → (t : Text) → Decidable (Balanced d t)
  | d, [] => inferInstanceAs (Decidable (d = 0))
  | d, c :: t =>
    have := instDecidableBalanced (d + bracket c) t
    inferInstanceAs (Decidable (0 ≤ d + bracket c ∧ Balanced (d + bracket c) t))

instance (t : Text) : Decidable (IsWord t) :=
  decidable_of_iff (t ≠ [] ∧ (∀ c ∈ t, Text.isBlank c = false) ∧ (∀ c ∈ t, c ≠ '<' ∧ c ≠ '>') ∧
      Balanced 0 t ∧ Whole ',' t ∧ Whole '|' t)
    ⟨fun ⟨hne, hblank, hangle, hb, hw⟩ => ⟨hne, hblank, hangle, hb, hw⟩,
      fun ⟨hne, hblank, hangle, hb, hw⟩ => ⟨hne, hblank, hangle, hb, hw⟩⟩

/-- A member of a union. The arguments of a name are unions. -/
inductive Term where
  | word (t : Text)
  | apply (name : Text) (args : List (List Term))

/-- The term as it is written. -/
def Term.text : Term → Text
  | .word t => t
  | .apply name args => application name (args.map fun ts => Text.join "|" (ts.map Term.text))
decreasing_by
  have := List.sizeOf_lt_of_mem ‹_ ∈ args›
  have := List.sizeOf_lt_of_mem ‹_ ∈ ts›
  simp only [Term.apply.sizeOf_spec]
  omega

/-- The type as it is written. -/
def typeText (ts : List Term) : Text := Text.join "|" (ts.map Term.text)

/-- Whether each word, name and list in the term is one that can be written. A name has no brackets,
and so nothing that could hide a separator in it. -/
inductive Term.IsSound : Term → Prop
  | word {t : Text} (h : IsWord t) : IsSound (.word t)
  | apply {name : Text} {args : List (List Term)} (hn : IsAtom name) (hname : name ≠ [])
      (hne : args ≠ []) (hargs : ∀ ts ∈ args, ts ≠ []) (h : ∀ ts ∈ args, ∀ t ∈ ts, t.IsSound) :
      IsSound (.apply name args)

/-- Whether the union has members, and all of them can be written. -/
structure IsSound (ts : List Term) : Prop where
  ne_nil : ts ≠ []
  members : ∀ t ∈ ts, t.IsSound

/-- The normal form of a term. -/
def Term.normal (t : Term) : Text := normalTerm t.text

/-- The normal form of a type. -/
def typeNormal (ts : List Term) : Text := normalUnion (typeText ts)

variable {t : Text} {u : Term} {name : Text} {ts : List Term} {args : List (List Term)}

theorem Term.text_apply (name : Text) (args : List (List Term)) :
    (Term.apply name args).text = application name (args.map typeText) := by
  rw [Term.text]
  rfl

@[simp] theorem Term.text_word (t : Text) : (Term.word t).text = t := by rw [Term.text]

/-! ## What is written -/

/-- Whether a text can stand in a union and between commas. -/
structure Stands (t : Text) : Prop where
  blankless : ∀ c ∈ t, Text.isBlank c = false
  balanced : Balanced 0 t
  comma : Whole ',' t

theorem IsWord.stands (h : IsWord t) : Stands t := ⟨h.blankless, h.balanced, h.whole.1⟩

theorem IsAtom.isWord (h : IsAtom t) (hne : t ≠ []) : IsWord t where
  ne_nil := hne
  blankless := h.settled.blankless
  noAngle c hc := by
    constructor
    · rintro rfl
      exact h.not_mem (by decide) hc
    · rintro rfl
      exact h.not_mem (by decide) hc
  balanced := h.settled.balanced
  whole := ⟨h.settled.whole, whole_of_not_mem (h.not_mem (by decide))⟩

theorem stands_join (h : ∀ u ∈ ts, Stands u.text) : Stands (typeText ts) where
  blankless c hc := by
    rcases Text.mem_join hc with hc | ⟨a, ha, hc⟩
    · rw [List.mem_singleton.mp hc]
      decide
    · obtain ⟨u, hu, rfl⟩ := List.mem_map.mp ha
      exact (h u hu).blankless c hc
  balanced := balanced_join (by decide) fun a ha => by
    obtain ⟨u, hu, rfl⟩ := List.mem_map.mp ha
    exact (h u hu).balanced
  comma := whole_join (by decide) (by decide) fun a ha => by
    obtain ⟨u, hu, rfl⟩ := List.mem_map.mp ha
    exact ⟨(h u hu).balanced, (h u hu).comma⟩

theorem stands_application (hn : IsAtom name) {as : List Text} (h : ∀ a ∈ as, Stands a) :
    Stands (application name as) where
  blankless c hc := by
    rcases List.mem_append.mp hc with hc | hc
    · exact hn.settled.blankless c hc
    · rcases List.mem_cons.mp hc with rfl | hc
      · decide
      · rcases List.mem_append.mp hc with hc | hc
        · rcases Text.mem_join hc with hc | ⟨a, ha, hc⟩
          · rw [List.mem_singleton.mp hc]
            decide
          · exact (h a ha).blankless c hc
        · rw [List.mem_singleton.mp hc]
          decide
  balanced := balanced_application hn.settled.balanced fun a ha => (h a ha).balanced
  comma := whole_application (by decide) hn.settled.balanced hn.settled.whole
    fun a ha => (h a ha).balanced

theorem Term.IsSound.stands (h : u.IsSound) : Stands u.text := by
  induction h with
  | word h =>
    rw [Term.text_word]
    exact h.stands
  | apply hn _ _ _ _ ih =>
    rw [Term.text_apply]
    refine stands_application hn fun a ha => ?_
    obtain ⟨ts, hts, rfl⟩ := List.mem_map.mp ha
    exact stands_join fun u hu => ih ts hts u hu

theorem IsSound.stands (h : IsSound ts) : Stands (typeText ts) :=
  stands_join fun u hu => (h.members u hu).stands

theorem Term.IsSound.arguments (h : (Term.apply name args).IsSound) :
    ∀ ts ∈ args, TypeExpr.IsSound ts := by
  cases h with
  | apply _ _ _ hargs h => exact fun ts hts => ⟨hargs ts hts, h ts hts⟩

/-- No union is split inside of a term. -/
theorem Term.IsSound.whole (h : u.IsSound) : Whole '|' u.text := by
  cases h with
  | word h =>
    rw [Term.text_word]
    exact h.whole.2
  | apply hn hname hne hargs h =>
    rw [Term.text_apply]
    refine whole_application (by decide) hn.settled.balanced
      (whole_of_not_mem (hn.not_mem (by decide))) fun a ha => ?_
    obtain ⟨ts, hts, rfl⟩ := List.mem_map.mp ha
    exact (TypeExpr.IsSound.mk (hargs ts hts) (h ts hts)).stands.balanced

/-! ## Normal forms of trees -/

theorem Term.normal_word (h : IsWord t) : (Term.word t).normal = t := by
  rw [Term.normal, Term.text_word]
  exact normalTerm_of_atom (application?_eq_none fun hm => (h.noAngle _ hm).1 rfl)

theorem Term.normal_apply (h : (Term.apply name args).IsSound) :
    (Term.apply name args).normal = applyName name (args.map typeNormal) := by
  have inner := h.arguments
  rw [Term.normal, ← normalUnion_of_whole h.whole, Term.text_apply]
  cases h with
  | apply hn _ hne _ _ =>
    rw [normalUnion_application hn (by simpa using hne), List.map_map]
    · rfl
    · intro a ha
      obtain ⟨ts, hts, rfl⟩ := List.mem_map.mp ha
      exact ⟨(inner ts hts).stands.balanced, (inner ts hts).stands.comma⟩

theorem typeNormal_eq (h : IsSound ts) : typeNormal ts = joinTerms (ts.map Term.normal) := by
  have parts : splitTop '|' (typeText ts) = ts.map Term.text := by
    refine splitTop_join (by simpa using h.ne_nil) fun a ha => ?_
    obtain ⟨u, hu, rfl⟩ := List.mem_map.mp ha
    exact ⟨(h.members u hu).stands.balanced, (h.members u hu).whole⟩
  rw [typeNormal, normalUnion_eq, parts, List.map_map]
  rfl

/-- A normal form of a term: it can be an argument, and no union is split in it. -/
structure IsNormal (t : Text) : Prop where
  settled : Settled t
  whole : Whole '|' t

theorem IsWord.isNormal (h : IsWord t) : IsNormal t where
  settled :=
    { blankless := h.blankless
      balanced := h.balanced
      whole := h.whole.1
      normal := by
        rw [normalUnion_of_whole h.whole.2]
        exact normalTerm_of_atom (application?_eq_none fun hm => (h.noAngle _ hm).1 rfl) }
  whole := h.whole.2

theorem isNormal_application (hn : IsAtom name) {as : List Text} (hne : as ≠ [])
    (h : ∀ a ∈ as, Settled a) (hany : (name = "array" ∨ name = "set") → as ≠ [("any" : Text)]) :
    IsNormal (application name as) where
  settled := settled_application hn hne h hany
  whole := whole_application (by decide) hn.settled.balanced
    (whole_of_not_mem (hn.not_mem (by decide))) fun a ha => (h a ha).balanced

theorem applyName_cases (name : Text) (as : List Text) :
    ((name = "array" ∨ name = "set") ∧ as = [("any" : Text)] ∧ applyName name as = name) ∨
      ((name = "array" ∨ name = "set") → as ≠ [("any" : Text)]) ∧
        applyName name as = application name as := by
  by_cases h : (name = "array" ∨ name = "set") ∧ as = [("any" : Text)]
  · exact .inl ⟨h.1, h.2, if_pos h⟩
  · refine .inr ⟨fun hname has => h ⟨hname, has⟩, ?_⟩
    rw [applyName, if_neg h]
    simp [application]

theorem isNormal_applyName (hn : IsAtom name) {as : List Text} (hne : as ≠ [])
    (h : ∀ a ∈ as, Settled a) : IsNormal (applyName name as) := by
  rcases applyName_cases name as with ⟨-, -, heq⟩ | ⟨hany, heq⟩
  · rw [heq]
    exact ⟨hn.settled, whole_of_not_mem (hn.not_mem (by decide))⟩
  · rw [heq]
    exact isNormal_application hn hne h hany

theorem joinTerms_cases (ms : List Text) :
    (1 < ms.length ∧ ("none" : Text) ∈ ms ∧
      joinTerms ms = application "option" [Text.join "|" (ms.filter (· != ("none" : Text)))]) ∨
    (ms.length ≤ 1 ∨ ("none" : Text) ∉ ms) ∧ joinTerms ms = Text.join "|" ms := by
  by_cases h : 1 < ms.length ∧ ("none" : Text) ∈ ms
  · refine .inl ⟨h.1, h.2, ?_⟩
    rw [joinTerms, if_pos (by simpa using h)]
    simp [application]
  · refine .inr ⟨?_, if_neg (by simpa using h)⟩
    rcases not_and_or.mp h with hlen | hm
    · exact .inl (not_lt.mp hlen)
    · exact .inr hm

theorem settled_joinTerms {ms : List Text} (hne : ms ≠ []) (h : ∀ m ∈ ms, IsNormal m) :
    Settled (joinTerms ms) := by
  have own : ∀ m ∈ ms, Settled m ∧ Whole '|' m := fun m hm => ⟨(h m hm).settled, (h m hm).whole⟩
  rcases joinTerms_cases ms with ⟨-, -, heq⟩ | ⟨halone, heq⟩
  · rw [heq]
    have option : IsAtom "option" := by decide
    refine settled_application option (by simp) (fun a ha => ?_) (by simp)
    rw [List.mem_singleton.mp ha]
    by_cases hothers : ms.filter (· != ("none" : Text)) = []
    · rw [hothers]
      exact IsAtom.settled (a := []) (by decide)
    · exact settled_join hothers (fun m hm => own m (List.mem_filter.mp hm).1) (.inr (by simp))
  · rw [heq]
    refine settled_join hne own (halone.imp_left fun hlen => ?_)
    have := List.length_pos_iff.mpr hne
    omega

theorem Term.IsSound.isNormal (h : u.IsSound) : IsNormal u.normal := by
  induction h with
  | word h =>
    rw [Term.normal_word h]
    exact h.isNormal
  | apply hn hname hne hargs h ih =>
    rw [Term.normal_apply (.apply hn hname hne hargs h)]
    refine isNormal_applyName hn (by simpa using hne) fun a ha => ?_
    obtain ⟨ts, hts, rfl⟩ := List.mem_map.mp ha
    rw [typeNormal_eq ⟨hargs ts hts, h ts hts⟩]
    refine settled_joinTerms (by simpa using hargs ts hts) fun m hm => ?_
    obtain ⟨u, hu, rfl⟩ := List.mem_map.mp hm
    exact ih ts hts u hu

theorem IsSound.settled (h : IsSound ts) : Settled (typeNormal ts) := by
  rw [typeNormal_eq h]
  refine settled_joinTerms (by simpa using h.ne_nil) fun m hm => ?_
  obtain ⟨u, hu, rfl⟩ := List.mem_map.mp hm
  exact (h.members u hu).isNormal

end SchemaDrift.TypeExpr
