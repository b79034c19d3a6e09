import SchemaDrift.Proofs.Statement.Heads

namespace SchemaDrift.Head

/-!
# Spellings of heads

The head of a field definition is read in every spelling: with the words in any case, with either
guard or none, with the table behind `ON` or `ON TABLE`, with or without backticks, and with any
blanks between the words. Only two names are in the way, those of the keywords that may be left out.
-/

open Statement (Renders)

variable {k w p t path table name : Text} {ws ps : List Text}

/-- Whether the words keep a definition from failing where there is one already, or are none. -/
inductive IsGuard : List Text → Prop
  | none : IsGuard []
  | overwrite {w : Text} (h : w.map Text.fold = "overwrite") : IsGuard [w]
  | ifNotExists {w₁ w₂ w₃ : Text} (h₁ : w₁.map Text.fold = "if") (h₂ : w₂.map Text.fold = "not")
      (h₃ : w₃.map Text.fold = "exists") : IsGuard [w₁, w₂, w₃]

/-- Whether the words stand in front of the table of a definition. -/
inductive IsOn : List Text → Prop
  | on {w : Text} (h : w.map Text.fold = "on") : IsOn [w]
  | onTable {w₁ w₂ : Text} (h₁ : w₁.map Text.fold = "on") (h₂ : w₂.map Text.fold = "table") :
      IsOn [w₁, w₂]

/-- Whether the text is the name, or the name between backticks. -/
inductive Spells (name : Text) : Text → Prop
  | bare : Spells name name
  | quoted : Spells name ('\x60' :: (name ++ ['\x60']))

/-- Whether the words are those of the definition of a field in front of its clauses. -/
inductive IsFieldHead (path table : Text) : List Text → Prop
  | words {define field name : Text} {guard on : List Text}
      (hdefine : define.map Text.fold = "define")
      (hfield : field.map Text.fold = "field") (hguard : IsGuard guard) (hon : IsOn on)
      (hname : Spells table name) :
      IsFieldHead path table (define :: field :: (guard ++ path :: (on ++ [name])))

/-! ## Words -/

/-- Whether the text is a word: not empty, and without blanks. -/
def IsUnbroken (w : Text) : Prop := w ≠ [] ∧ ∀ c ∈ w, Text.isBlank c = false

instance (w : Text) : Decidable (IsUnbroken w) :=
  inferInstanceAs (Decidable (w ≠ [] ∧ ∀ c ∈ w, Text.isBlank c = false))

theorem IsUnbroken.isTrimmed (h : IsUnbroken w) : Text.IsTrimmed w :=
  Text.isTrimmed_of_forall_not_blank h.1 h.2

theorem IsUnbroken.of_fold (hk : IsUnbroken k) (h : w.map Text.fold = k) : IsUnbroken w := by
  refine ⟨?_, fun c hc => ?_⟩
  · rintro rfl
    exact hk.1 h.symm
  · have folded := hk.2 (Text.fold c) (h ▸ List.mem_map_of_mem hc)
    by_contra hb
    have blank : Text.isBlank c = true := by simpa using hb
    rw [Text.fold_of_isBlank blank, blank] at folded
    cases folded

theorem isUnbroken_name (h : IsName name) : IsUnbroken name :=
  ⟨h.1, fun c hc => isBlank_of_isNameChar (h.2 c hc)⟩

theorem Spells.isUnbroken (h : Spells table name) (ht : IsName table) : IsUnbroken name := by
  have letters := (isUnbroken_name ht).2
  cases h with
  | bare => exact isUnbroken_name ht
  | quoted =>
    refine ⟨by simp, fun c hc => ?_⟩
    have tick : Text.isBlank '\x60' = false := by decide
    rcases List.mem_cons.mp hc with rfl | hc
    · exact tick
    · rcases List.mem_append.mp hc with hc | hc
      · exact letters c hc
      · rwa [List.mem_singleton.mp hc]

theorem breaks_of_renders (h : Renders ps t) : Breaks t := by
  cases h with
  | nil => rintro _ ⟨⟩
  | @cons p g t ps hg _ =>
    obtain ⟨hne, hblank⟩ := hg
    cases g with
    | nil => exact absurd rfl hne
    | cons c g =>
      rintro _ ⟨⟩
      exact hblank c List.mem_cons_self

theorem skipBlanks?_renders (h : Renders (p :: ps) t) (hp : IsUnbroken p) :
    ∃ rest, Text.skipBlanks? t = some (p ++ rest) ∧ Renders ps rest := by
  obtain ⟨g, rest, rfl, hg, hrest⟩ := h.of_cons
  exact ⟨rest, skipBlanks?_space hg (begins_append hp.isTrimmed rest), hrest⟩

/-- A keyword is read up to the next word. -/
theorem word?_renders (hw : w.map Text.fold = k) (h : Renders (p :: ps) t) (hp : IsUnbroken p) :
    ∃ rest, word? k (w ++ t) = some (p ++ rest) ∧ Renders ps rest := by
  obtain ⟨g, rest, rfl, hg, hrest⟩ := h.of_cons
  exact ⟨rest, word?_space (stripKeyword_of_fold hw) hg (begins_append hp.isTrimmed rest), hrest⟩

/-- Another word is not read as the keyword. -/
theorem word?_eq_none (hk : IsUnbroken k) (hw : IsUnbroken w) (ht : Renders ps t)
    (hne : w.map Text.fold ≠ k) : word? k (w ++ t) = none :=
  Option.eq_none_iff_forall_ne_some.mpr fun _ h =>
    hne (fold_of_word? hk.2 hw.2 (breaks_of_renders ht) h)

/-! ## Guards -/

theorem guard?_renders (hguard : IsGuard (w :: ws)) (h : Renders (ws ++ p :: ps) t)
    (hp : IsUnbroken p) : ∃ rest, guard? (w ++ t) = some (p ++ rest) ∧ Renders ps rest := by
  cases hguard with
  | overwrite hw =>
    obtain ⟨rest, hrest, hps⟩ := word?_renders hw h hp
    exact ⟨rest, by rw [guard?, hrest, Option.some_or], hps⟩
  | @ifNotExists _ w₂ w₃ h₁ h₂ h₃ =>
    have first : word? "overwrite" (w ++ t) = none :=
      word?_eq_none (by decide) (.of_fold (by decide) h₁) h (by rw [h₁]; decide)
    have unbroken₂ : IsUnbroken w₂ := .of_fold (by decide) h₂
    have unbroken₃ : IsUnbroken w₃ := .of_fold (by decide) h₃
    obtain ⟨t₁, hif, ht₁⟩ := word?_renders h₁ h unbroken₂
    obtain ⟨t₂, hnot, ht₂⟩ := word?_renders h₂ ht₁ unbroken₃
    obtain ⟨t₃, hexists, ht₃⟩ := word?_renders h₃ ht₂ hp
    refine ⟨t₃, ?_, ht₃⟩
    rw [guard?, first, Option.none_or, hif, Option.bind_some, hnot, Option.bind_some, hexists]

/-- A name in front of `ON` is no guard, unless it is that of the keyword. -/
theorem guard?_eq_none (hp : IsUnbroken p) (hne : p.map Text.fold ≠ "overwrite")
    (hw : w.map Text.fold = "on") (h : Renders (w :: ps) t) : guard? (p ++ t) = none := by
  have first : word? "overwrite" (p ++ t) = none := word?_eq_none (by decide) hp h hne
  have unbroken : IsUnbroken w := .of_fold (by decide) hw
  rw [guard?, first, Option.none_or]
  by_cases hif : p.map Text.fold = "if"
  · obtain ⟨rest, hrest, hps⟩ := word?_renders hif h unbroken
    have second : word? "not" (w ++ rest) = none :=
      word?_eq_none (by decide) unbroken hps (by rw [hw]; decide)
    rw [hrest, Option.bind_some, second]
    rfl
  · have second : word? "if" (p ++ t) = none := word?_eq_none (by decide) hp h hif
    rw [second]
    rfl

/-! ## Tables -/

theorem name?_renders (hname : Spells table name) (ht : IsName table) (h : Renders ps t) :
    name? (name ++ t) = some (table, t) := by
  have breaks := breaks_of_renders h
  cases hname with
  | bare => exact name?_append ht breaks
  | quoted =>
    have tick : EndsName ('\x60' :: t) := by
      rintro _ ⟨⟩
      decide
    rw [List.cons_append, List.append_assoc, List.singleton_append, name?, skipBacktick_cons,
      takeName?_append ht tick, Option.map_some]
    exact congrArg (fun rest => some (table, rest)) (skipBacktick_cons t)

theorem fold_ne_of_sameLetters {k n : Text} (hk : 's' ∉ k ∧ 'k' ∉ k)
    (hlower : k.map Char.toLower = k) (h : Text.sameLetters n k = false) : n.map Text.fold ≠ k := by
  intro hfold
  rw [Text.sameLetters, map_toLower_of_fold hk hfold, hlower, beq_self_eq_true] at h
  cases h

theorem target?_renders (hon : IsOn ws) (hname : Spells table name) (ht : IsName table)
    (htable : Text.sameLetters table "table" = false) (h : Renders (ws ++ name :: ps) t) :
    ∃ rest, target? t = some (table, rest) ∧ Renders ps rest := by
  have unbroken := hname.isUnbroken ht
  cases hon with
  | on hw =>
    obtain ⟨t₁, hskip, ht₁⟩ := skipBlanks?_renders h (.of_fold (by decide) hw)
    obtain ⟨t₂, hword, ht₂⟩ := word?_renders hw ht₁ unbroken
    have other : word? "table" (name ++ t₂) = none := by
      refine word?_eq_none (by decide) unbroken ht₂ ?_
      cases hname with
      | bare => exact fold_ne_of_sameLetters (by decide) (by decide) htable
      | quoted =>
        intro hfold
        cases (List.cons.inj hfold).1
    refine ⟨t₂, ?_, ht₂⟩
    rw [target?]
    simp only [hskip, hword, Option.bind_eq_bind, Option.bind_some, other, Option.bind_none,
      Option.none_or]
    exact name?_renders hname ht ht₂
  | onTable h₁ h₂ =>
    obtain ⟨t₁, hskip, ht₁⟩ := skipBlanks?_renders h (.of_fold (by decide) h₁)
    obtain ⟨t₂, hword, ht₂⟩ := word?_renders h₁ ht₁ (.of_fold (by decide) h₂)
    obtain ⟨t₃, hword₂, ht₃⟩ := word?_renders h₂ ht₂ unbroken
    refine ⟨t₃, ?_, ht₃⟩
    rw [target?]
    simp only [hskip, hword, hword₂, Option.bind_eq_bind, Option.bind_some,
      name?_renders hname ht ht₃, Option.some_or]

/-! ## Heads -/

theorem owned_renders (hpath : IsPath path) (hon : IsOn ws) (hname : Spells table name)
    (ht : IsName table) (htable : Text.sameLetters table "table" = false)
    (h : Renders (ws ++ name :: ps) t) :
    ∃ rest, owned path? (path ++ t) = some ⟨path, table, rest⟩ ∧ Renders ps rest := by
  obtain ⟨rest, hrest, hps⟩ := target?_renders hon hname ht htable h
  refine ⟨rest, ?_, hps⟩
  simp only [owned, path?_append hpath (breaks_of_renders h).endsPath, hrest, Option.bind_eq_bind,
    Option.bind_some]
  rfl

theorem isUnbroken_path (hpath : IsPath path) : IsUnbroken path :=
  ⟨hpath.isTrimmed.ne_nil, hpath.isBlank_eq_false⟩

theorem IsGuard.isUnbroken (h : IsGuard (w :: ws)) : IsUnbroken w := by
  cases h with
  | overwrite hw => exact .of_fold (by decide) hw
  | ifNotExists h₁ _ _ => exact .of_fold (by decide) h₁

/-- Without a guard the field and its table are read, unless the field is called like a guard. -/
theorem guarded_plain (hpath : IsPath path) (hover : Text.sameLetters path "overwrite" = false)
    (hon : IsOn ws) (hname : Spells table name) (ht : IsName table)
    (htable : Text.sameLetters table "table" = false) (h : Renders (ws ++ name :: ps) t) :
    ∃ rest, guarded (owned path?) (path ++ t) = some ⟨path, table, rest⟩ ∧ Renders ps rest := by
  obtain ⟨rest, hread, hps⟩ := owned_renders hpath hon hname ht htable h
  have hne := fold_ne_of_sameLetters (by decide) (by decide) hover
  have nothing : guard? (path ++ t) = none := by
    cases hon with
    | on hw => exact guard?_eq_none (isUnbroken_path hpath) hne hw h
    | onTable hw _ => exact guard?_eq_none (isUnbroken_path hpath) hne hw h
  refine ⟨rest, ?_, hps⟩
  rw [guarded, nothing, Option.bind_none, Option.none_or, hread]

theorem guarded_guard {on : List Text} (hguard : IsGuard (w :: ws)) (hpath : IsPath path)
    (hon : IsOn on) (hname : Spells table name) (ht : IsName table)
    (htable : Text.sameLetters table "table" = false)
    (h : Renders (ws ++ path :: (on ++ name :: ps)) t) :
    ∃ rest, guarded (owned path?) (w ++ t) = some ⟨path, table, rest⟩ ∧ Renders ps rest := by
  obtain ⟨t', hskip, ht'⟩ := guard?_renders hguard h (isUnbroken_path hpath)
  obtain ⟨rest, hread, hps⟩ := owned_renders hpath hon hname ht htable ht'
  refine ⟨rest, ?_, hps⟩
  rw [guarded, hskip, Option.bind_some, hread, Option.some_or]

/-- The head of a field definition is read in every spelling, unless its names are in the way. -/
theorem field?_renders (hhead : IsFieldHead path table (w :: ws)) (hpath : IsPath path)
    (hover : Text.sameLetters path "overwrite" = false) (ht : IsName table)
    (htable : Text.sameLetters table "table" = false) {lead : Text}
    (hlead : ∀ c ∈ lead, Text.isBlank c = true) (h : Renders (ws ++ ps) t) :
    ∃ rest, field? (lead ++ (w ++ t)) = some ⟨path, table, rest⟩ ∧ Renders ps rest := by
  cases hhead with
  | @words _ field name guard on hdefine hfield hguard hon hname =>
    have regroup : field :: (guard ++ path :: (on ++ [name])) ++ ps =
        field :: (guard ++ path :: (on ++ name :: ps)) := by simp
    rw [regroup] at h
    have unbroken : IsUnbroken w := .of_fold (by decide) hdefine
    have start : Text.trimStart (lead ++ (w ++ t)) = w ++ t :=
      trimStart_append_of_blank hlead (begins_append unbroken.isTrimmed t)
    obtain ⟨t₁, hword, ht₁⟩ := word?_renders hdefine h (.of_fold (by decide) hfield)
    cases guard with
    | nil =>
      obtain ⟨t₂, hnoun, ht₂⟩ := word?_renders hfield ht₁ (isUnbroken_path hpath)
      obtain ⟨rest, hread, hps⟩ := guarded_plain hpath hover hon hname ht htable ht₂
      refine ⟨rest, ?_, hps⟩
      rw [field?, define?, start, hword, Option.bind_some, hnoun, Option.bind_some, hread]
    | cons first guard =>
      obtain ⟨t₂, hnoun, ht₂⟩ := word?_renders hfield ht₁ hguard.isUnbroken
      obtain ⟨rest, hread, hps⟩ := guarded_guard hguard hpath hon hname ht htable ht₂
      refine ⟨rest, ?_, hps⟩
      rw [field?, define?, start, hword, Option.bind_some, hnoun, Option.bind_some, hread]

end SchemaDrift.Head
