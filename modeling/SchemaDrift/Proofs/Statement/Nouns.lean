import SchemaDrift.Proofs.Statement.Surroundings

namespace SchemaDrift

/-!
# Nouns of definitions

The noun of a definition decides how it is read. Where the noun is known in advance, the reading for
this noun gives the same.
-/

/-! ## Upper case -/

theorem toUpper_toLower (c : Char) : c.toLower.toUpper = c.toUpper := by
  apply Char.toNat_inj.mp
  rw [toNat_toUpper, toNat_toUpper, toNat_toLower]
  split_ifs <;> omega

/-- A letter that folds to one in lower case has the same upper case. -/
theorem toUpper_fold {c : Char} (hs : Text.fold c ≠ 's') (hk : Text.fold c ≠ 'k') :
    (Text.fold c).toUpper = c.toUpper := by
  unfold Text.fold at *
  split_ifs at * with h₁ h₂
  · exact absurd rfl hs
  · exact absurd rfl hk
  · exact toUpper_toLower c

namespace Text

/-- A word that stands for a keyword is the keyword in some case. -/
theorem exists_of_stripKeyword {k t rest : Text} (hk : 's' ∉ k ∧ 'k' ∉ k)
    (h : stripKeyword k t = some rest) :
    ∃ word, t = word ++ rest ∧ (∀ c ∈ word, fold c ∈ k) ∧ uppercase word = uppercase k := by
  induction k generalizing t with
  | nil =>
    cases h
    exact ⟨[], rfl, by simp, rfl⟩
  | cons d ds ih =>
    cases t with
    | nil => cases h
    | cons c cs =>
      rw [stripKeyword] at h
      split at h
      · rename_i hd
        subst hd
        obtain ⟨word, rfl, hfold, hupper⟩ := ih ⟨fun hm => hk.1 (List.mem_cons_of_mem _ hm),
          fun hm => hk.2 (List.mem_cons_of_mem _ hm)⟩ h
        refine ⟨c :: word, rfl, ?_, ?_⟩
        · intro e he
          rcases List.mem_cons.mp he with rfl | he
          · exact List.mem_cons_self
          · exact List.mem_cons_of_mem _ (hfold e he)
        · have upper := toUpper_fold (c := c) (fun he => hk.1 (by simp [he]))
            fun he => hk.2 (by simp [he])
          rw [uppercase, List.map_cons, ← upper]
          exact congrArg _ hupper
      · cases h

end Text

namespace Head

/-- The head of a definition starts with its noun. -/
theorem noun?_of_define? {noun t rest : Text} (hnoun : ∀ c ∈ noun, c.isAlpha = true)
    (hne : noun ≠ []) (hk : 's' ∉ noun ∧ 'k' ∉ noun) (h : define? noun t = some rest) :
    ∃ word r, noun? t = some (word, r) ∧ Text.uppercase word = Text.uppercase noun := by
  obtain ⟨u, hu, hr⟩ := Option.bind_eq_some_iff.mp h
  obtain ⟨r, hr, hrest⟩ := Option.bind_eq_some_iff.mp hr
  obtain ⟨word, rfl, hword, hupper⟩ := Text.exists_of_stripKeyword hk hr
  have letters : (word ++ r).takeWhile Text.isLetter = word := by
    have all : ∀ c ∈ word, Text.isLetter c = true := fun c hc => hnoun _ (hword c hc)
    rw [List.takeWhile_append_of_pos all]
    cases r with
    | nil => simp
    | cons c cs =>
      have blank : Text.isBlank c = true := by
        rw [Text.skipBlanks?] at hrest
        split at hrest
        · assumption
        · cases hrest
      have other : ¬Text.isLetter c = true := by
        intro hc
        rw [isBlank_of_isNameChar (isNameChar_of_isLetter hc)] at blank
        cases blank
      rw [List.takeWhile_cons_of_neg other, List.append_nil]
  have some : word ≠ [] := by
    rintro rfl
    exact hne (List.map_eq_nil_iff.mp hupper.symm)
  refine ⟨word, (word ++ r).dropWhile Text.isLetter, ?_, hupper⟩
  rw [noun?_eq, hu, Option.bind_some, letters, if_neg some]

end Head

/-! ## Tables and members -/

namespace Statement

/-- The table that a statement defines. -/
def table? (statement : Text) : Option Table := (readTable statement).toOption

/-- The member that a statement defines, with the name of its table. -/
def member? (statement : Text) : Option (Text × Member) :=
  (Definition.read statement).toOption.bind Definition.member?

/-- Whether a statement has this noun. -/
def HasNoun (noun : Noun) (s : Text) : Prop :=
  ∃ found ∈ Head.noun? s, Text.uppercase found.1 = noun.keyword

instance (noun : Noun) (s : Text) : Decidable (HasNoun noun s) :=
  inferInstanceAs (Decidable (∃ found ∈ Head.noun? s, Text.uppercase found.1 = noun.keyword))

variable {s : Text}

theorem HasNoun.read_eq {noun : Noun} (h : HasNoun noun s) :
    Definition.read s = Definition.readAs s noun := by
  obtain ⟨found, hnoun, hword⟩ := h
  exact Definition.read_of_uppercase hnoun hword

/-- A statement that defines a table has the noun of a table. -/
theorem hasNoun_of_table? {t : Table} (h : table? s = some t) : HasNoun .table s := by
  cases hhead : Head.table? s with
  | none =>
    rw [table?, readTable, hhead] at h
    cases h
  | some head =>
    obtain ⟨rest, hrest, -⟩ := Option.bind_eq_some_iff.mp hhead
    obtain ⟨word, r, hnoun, hword⟩ :=
      Head.noun?_of_define? (by decide) (by decide) (by decide) hrest
    exact ⟨(word, r), hnoun, hword⟩

end Statement

namespace Definition

open Statement

/-- A statement defines nothing, is read by its noun or is of a kind that no schema holds. -/
theorem read_cases (s : Text) : read s = .ok .nothing ∨ (∃ noun, read s = readAs s noun) ∨
    ∃ keyword name, read s = .ok (.unsupported keyword name) := by
  cases hnoun : Head.noun? s with
  | none =>
    left
    rw [read, hnoun]
  | some found =>
    by_cases hn : ∃ noun : Noun, Text.uppercase found.1 = noun.keyword
    · obtain ⟨noun, hword⟩ := hn
      exact .inr (.inl ⟨noun, read_of_uppercase hnoun hword⟩)
    · exact .inr (.inr ⟨_, _, read_of_forall_ne hnoun fun noun hword => hn ⟨noun, hword⟩⟩)

theorem bind_table?_readAs (s : Text) (noun : Noun) :
    (readAs s noun).toOption.bind Definition.table? =
      if noun = .table then Statement.table? s else none := by
  cases noun with
  | table =>
    rw [readAs, if_pos rfl, Statement.table?]
    cases readTable s <;> rfl
  | field =>
    rw [readAs]
    cases Head.field? s <;> rfl
  | index =>
    rw [readAs]
    cases Head.index? s with
    | none => rfl
    | some head =>
      simp only [expect, Except.bind]
      cases Statement.index s head <;> rfl
  | event =>
    rw [readAs]
    cases Head.event? s with
    | none => rfl
    | some head =>
      simp only [expect, Except.bind]
      cases Statement.event s head <;> rfl

theorem bind_table?_read (s : Text) :
    (read s).toOption.bind Definition.table? = Statement.table? s := by
  cases ht : Statement.table? s with
  | some t => rw [(hasNoun_of_table? ht).read_eq, bind_table?_readAs, if_pos rfl, ht]
  | none =>
    rcases read_cases s with h | ⟨noun, h⟩ | ⟨keyword, name, h⟩
    · rw [h]
      rfl
    · rw [h, bind_table?_readAs, ht, ite_self]
    · rw [h]
      rfl

end Definition

namespace Statement

variable {s : Text}

theorem HasNoun.member?_eq {noun : Noun} (h : HasNoun noun s) :
    member? s = (Definition.readAs s noun).toOption.bind Definition.member? := by
  rw [member?, h.read_eq]

theorem HasNoun.table?_eq_none {noun : Noun} (h : HasNoun noun s) (hne : noun ≠ .table) :
    table? s = none := by
  rw [← Definition.bind_table?_read, h.read_eq, Definition.bind_table?_readAs, if_neg hne]

theorem HasNoun.map_member?_field (h : HasNoun .field s) :
    (member? s).map Prod.snd = (Member.readField s).toOption := by
  rw [h.member?_eq, Definition.readAs, Member.readField, readField]
  cases Head.field? s <;> rfl

theorem HasNoun.map_member?_index (h : HasNoun .index s) :
    (member? s).map Prod.snd = (Member.readIndex s).toOption := by
  rw [h.member?_eq, Definition.readAs, Member.readIndex, readIndex]
  cases Head.index? s with
  | none => rfl
  | some head =>
    simp only [expect, Except.bind]
    cases index s head <;> rfl

theorem HasNoun.map_member?_event (h : HasNoun .event s) :
    (member? s).map Prod.snd = (Member.readEvent s).toOption := by
  rw [h.member?_eq, Definition.readAs, Member.readEvent, readEvent]
  cases Head.event? s with
  | none => rfl
  | some head =>
    simp only [expect, Except.bind]
    cases event s head <;> rfl

end Statement

end SchemaDrift
