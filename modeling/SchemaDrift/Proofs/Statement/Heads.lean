import SchemaDrift.Proofs.Statement.Names
import SchemaDrift.Proofs.Statement.Phrase
import SchemaDrift.Statement.Read
import SchemaDrift.Statement.Write

namespace SchemaDrift.Head

/-!
# Heads of written definitions

The head of a written definition is read back whatever its names are, keywords included: where a
name is taken for the keyword in front of a name, what follows does not make a head, and the
reading without the keyword counts. Only a table cannot be called like this keyword.
-/

open Statement (IsSpace Renders isSpace_blank phrase phrase_cons phrase_nil)

theorem stripKeyword_append {k t s : Text} (h : Text.stripKeyword k t = some s) (r : Text) :
    Text.stripKeyword k (t ++ r) = some (s ++ r) := by
  induction k generalizing t with
  | nil =>
    cases h
    rfl
  | cons a k ih =>
    cases t with
    | nil => cases h
    | cons c cs =>
      rw [Text.stripKeyword] at h
      split at h
      · rw [List.cons_append, Text.stripKeyword, if_pos (by assumption)]
        exact ih h
      · cases h

theorem stripKeyword_of_fold {k t : Text} (h : t.map Text.fold = k) :
    Text.stripKeyword k t = some [] := by
  subst h
  induction t with
  | nil => rfl
  | cons c cs ih => simpa [Text.stripKeyword] using ih

/-- Whether a text does not start with a blank. -/
abbrev Begins (t : Text) : Prop := ∀ c ∈ t.head?, Text.isBlank c = false

/-- Whether a text is empty or starts with a blank. -/
abbrev Breaks (t : Text) : Prop := ∀ c ∈ t.head?, Text.isBlank c = true

theorem begins_append {p : Text} (hp : Text.IsTrimmed p) (t : Text) : Begins (p ++ t) := by
  obtain ⟨hne, hhead, -⟩ := Text.isTrimmed_iff.mp hp
  cases p with
  | nil => exact absurd rfl hne
  | cons c p => exact hhead

theorem breaks_phrase (ps : List Text) : Breaks (phrase ps) := by
  cases ps with
  | nil =>
    rintro _ ⟨⟩
  | cons p ps =>
    rintro _ ⟨⟩
    exact Text.isBlank_space

theorem Breaks.endsPath {t : Text} (h : Breaks t) : EndsPath t := by
  intro c hc
  have blank := h c hc
  have other (d : Char) (hd : Text.isBlank d = false) : c ≠ d := by
    rintro rfl
    rw [blank] at hd
    cases hd
  refine ⟨?_, other '.' (by decide), other '[' (by decide)⟩
  by_contra hn
  rw [isBlank_of_isNameChar (by simpa using hn)] at blank
  cases blank

theorem trimStart_append_of_blank {g t : Text} (hg : ∀ c ∈ g, Text.isBlank c = true)
    (ht : Begins t) : Text.trimStart (g ++ t) = t := by
  induction g with
  | nil =>
    cases t with
    | nil => rfl
    | cons c t => exact Text.trimStart_cons_of_not_blank t (ht c rfl)
  | cons c g ih =>
    rw [List.cons_append, Text.trimStart_cons_of_blank _ (hg c List.mem_cons_self)]
    exact ih fun d hd => hg d (List.mem_cons_of_mem c hd)

theorem skipBlanks?_space {g t : Text} (hg : IsSpace g) (ht : Begins t) :
    Text.skipBlanks? (g ++ t) = some t := by
  obtain ⟨hne, hblank⟩ := hg
  cases g with
  | nil => exact absurd rfl hne
  | cons c g =>
    rw [List.cons_append, Text.skipBlanks?, if_pos (hblank c List.mem_cons_self)]
    exact congrArg some
      (trimStart_append_of_blank (fun d hd => hblank d (List.mem_cons_of_mem c hd)) ht)

theorem word?_space {k w g t : Text} (h : Text.stripKeyword k w = some []) (hg : IsSpace g)
    (ht : Begins t) : word? k (w ++ (g ++ t)) = some t := by
  rw [word?, stripKeyword_append h, Option.bind_some, List.nil_append, skipBlanks?_space hg ht]

theorem skipBlanks?_phrase {p : Text} (hp : Text.IsTrimmed p) (ps : List Text) :
    Text.skipBlanks? (phrase (p :: ps)) = some (p ++ phrase ps) :=
  skipBlanks?_space isSpace_blank (begins_append hp _)

theorem word?_phrase {k w p : Text} (h : Text.stripKeyword k w = some []) (hp : Text.IsTrimmed p)
    (ps : List Text) : word? k (w ++ phrase (p :: ps)) = some (p ++ phrase ps) :=
  word?_space h isSpace_blank (begins_append hp _)

/-- A word without blanks in front of a blank is read as a keyword only if it is this keyword. -/
theorem fold_of_word? {k n t r : Text} (hk : ∀ c ∈ k, Text.isBlank c = false)
    (hn : ∀ c ∈ n, Text.isBlank c = false) (ht : Breaks t) (h : word? k (n ++ t) = some r) :
    n.map Text.fold = k := by
  obtain ⟨s, hs, hr⟩ := Option.bind_eq_some_iff.mp h
  clear h
  induction k generalizing n with
  | nil =>
    cases n with
    | nil => rfl
    | cons c cs =>
      cases hs
      simp [Text.skipBlanks?, hn c List.mem_cons_self] at hr
  | cons a k ih =>
    cases n with
    | nil =>
      cases t with
      | nil => cases hs
      | cons c t =>
        have ha : a ≠ Text.fold c := by
          have blank := ht c rfl
          rw [Text.fold_of_isBlank blank]
          rintro rfl
          rw [hk a List.mem_cons_self] at blank
          cases blank
        rw [List.nil_append, Text.stripKeyword, if_neg ha] at hs
        cases hs
    | cons c cs =>
      rw [List.cons_append, Text.stripKeyword] at hs
      split at hs
      · rename_i ha
        rw [List.map_cons, ih (fun d hd => hk d (List.mem_cons_of_mem a hd))
          (fun d hd => hn d (List.mem_cons_of_mem c hd)) hs, ha]
      · cases hs

theorem map_toLower_of_fold {k n : Text} (hk : 's' ∉ k ∧ 'k' ∉ k) (h : n.map Text.fold = k) :
    n.map Char.toLower = k := by
  rw [← h]
  apply List.map_congr_left
  intro c hc
  have hm : Text.fold c ∈ k := h ▸ List.mem_map_of_mem hc
  unfold Text.fold at hm ⊢
  split
  · rename_i hs
    rw [if_pos hs] at hm
    exact absurd hm hk.1
  · rename_i hs
    split
    · rename_i hkelvin
      rw [if_neg hs, if_pos hkelvin] at hm
      exact absurd hm hk.2
    · rfl

/-- In front of a part that does not start with `NOT`, a guard is only the one keyword. -/
theorem guard?_phrase {n p : Text} (hn : ∀ c ∈ n, Text.isBlank c = false) (hp : Text.IsTrimmed p)
    {ps : List Text} (hnot : Text.stripKeyword "not" (p ++ phrase ps) = none) :
    guard? (n ++ phrase (p :: ps)) =
      if n.map Text.fold = "overwrite" then some (p ++ phrase ps) else none := by
  have second : ((word? "if" (n ++ phrase (p :: ps))).bind (word? "not")).bind (word? "exists") =
      none := by
    cases h : word? "if" (n ++ phrase (p :: ps)) with
    | none => rfl
    | some r =>
      have hfold := fold_of_word? (by decide) hn (breaks_phrase _) h
      rw [word?_phrase (stripKeyword_of_fold hfold) hp] at h
      cases h
      rw [Option.bind_some, word?, hnot]
      rfl
  split
  · rename_i hfold
    rw [guard?, word?_phrase (stripKeyword_of_fold hfold) hp]
    rfl
  · rename_i hfold
    have first : word? "overwrite" (n ++ phrase (p :: ps)) = none := by
      cases h : word? "overwrite" (n ++ phrase (p :: ps)) with
      | none => rfl
      | some r => exact absurd (fold_of_word? (by decide) hn (breaks_phrase _) h) hfold
    rw [guard?, first, second]
    rfl

/-- What a guard could be in front of is read without it, unless the keyword was the guard. -/
theorem guarded_phrase {α : Type} {read : Text → Option α} {n p : Text} {ps : List Text} {a : α}
    (hn : ∀ c ∈ n, Text.isBlank c = false) (hp : Text.IsTrimmed p)
    (hnot : Text.stripKeyword "not" (p ++ phrase ps) = none)
    (hread : read (n ++ phrase (p :: ps)) = some a)
    (hguard : n.map Text.fold = "overwrite" → read (p ++ phrase ps) = none) :
    guarded read (n ++ phrase (p :: ps)) = some a := by
  rw [guarded, guard?_phrase hn hp hnot]
  split
  · rename_i hfold
    rw [Option.bind_some, hguard hfold, hread]
    rfl
  · exact hread

/-- Behind the keyword that allows a definition to replace another one, the name is read. -/
theorem guarded_overwrite {α : Type} {read : Text → Option α} {p : Text} {ps : List Text} {a : α}
    (hp : Text.IsTrimmed p) (hread : read (p ++ phrase ps) = some a) :
    guarded read ("OVERWRITE" ++ phrase (p :: ps)) = some a := by
  have hguard : guard? ("OVERWRITE" ++ phrase (p :: ps)) = some (p ++ phrase ps) := by
    rw [guard?, word?_phrase (by decide) hp]
    rfl
  rw [guarded, hguard, Option.bind_some, hread]
  rfl

/-! ## Names and tables -/

theorem skipBacktick_eq_self {t : Text} (h : t.head? ≠ some '\x60') : skipBacktick t = t := by
  cases t with
  | nil => rfl
  | cons c cs =>
    have hc : '\x60' ≠ c := fun hc => h (by rw [hc]; rfl)
    change (Text.stripStart ['\x60'] (c :: cs)).getD (c :: cs) = c :: cs
    rw [Text.stripStart, if_neg hc]
    rfl

theorem skipBacktick_of_breaks {t : Text} (h : Breaks t) : skipBacktick t = t := by
  refine skipBacktick_eq_self fun hhead => ?_
  have blank := h '\x60' hhead
  cases blank

theorem skipBacktick_cons (t : Text) : skipBacktick ('\x60' :: t) = t := by
  have strip : Text.stripStart "\x60" ('\x60' :: t) = some t := Text.stripStart_append ['\x60'] t
  rw [skipBacktick, strip, Option.getD_some]

theorem name?_append {n t : Text} (hn : IsName n) (ht : Breaks t) :
    name? (n ++ t) = some (n, t) := by
  have hhead : (n ++ t).head? ≠ some '\x60' := by
    cases n with
    | nil => exact absurd rfl hn.1
    | cons c cs =>
      have hc := ne_of_isNameChar (d := '\x60') (hn.2 c List.mem_cons_self) (by decide)
      simpa using hc
  rw [name?, skipBacktick_eq_self hhead, takeName?_append hn fun c hc => (ht.endsPath c hc).1,
    Option.map_some]
  exact congrArg (fun rest => some (n, rest)) (skipBacktick_of_breaks ht)

theorem name?_phrase {n : Text} (hn : IsName n) (ps : List Text) :
    name? (n ++ phrase ps) = some (n, phrase ps) := name?_append hn (breaks_phrase ps)

theorem path?_phrase {n : Text} (hn : IsPath n) (ps : List Text) :
    path? (n ++ phrase ps) = some (n, phrase ps) := path?_append hn (breaks_phrase ps).endsPath

/-- The parts that name the table of a definition. -/
def onTable (table : Text) : List Text := ["ON", "TABLE", table]

theorem target?_onTable {table : Text} (h : IsName table) (ps : List Text) :
    target? (phrase (onTable table ++ ps)) = some (table, phrase ps) := by
  have hon : word? "on" ("ON" ++ phrase ("TABLE" :: table :: ps)) =
      some ("TABLE" ++ phrase (table :: ps)) := word?_phrase (by decide) (by decide) _
  have htable : word? "table" ("TABLE" ++ phrase (table :: ps)) = some (table ++ phrase ps) :=
    word?_phrase (by decide) h.isTrimmed ps
  simp only [onTable, List.cons_append, List.nil_append, target?, Option.bind_eq_bind]
  rw [skipBlanks?_phrase (by decide), Option.bind_some, hon, Option.bind_some, htable,
    Option.bind_some, name?_phrase h]
  rfl

theorem target?_table (ps : List Text) : target? (phrase ("TABLE" :: ps)) = none := by
  rw [target?, skipBlanks?_phrase (by decide)]
  rfl

/-- A reader of names that reads what is good up to the next part of a phrase. -/
def ReadsName (good : Text → Prop) (read : Text → Option (Text × Text)) : Prop :=
  ∀ n, good n → ∀ ps, read (n ++ phrase ps) = some (n, phrase ps)

theorem readsName_name? : ReadsName IsName name? := fun _ hn => name?_phrase hn

theorem readsName_path? : ReadsName IsPath path? := fun _ hn => path?_phrase hn

theorem owned_phrase {good : Text → Prop} {read : Text → Option (Text × Text)}
    (hr : ReadsName good read) {n table : Text} (hn : good n) (ht : IsName table) (ps : List Text) :
    owned read (n ++ phrase (onTable table ++ ps)) = some ⟨n, table, phrase ps⟩ := by
  simp only [owned, hr n hn, Option.bind_eq_bind, Option.bind_some, target?_onTable ht]
  rfl

/-- The name of a member is read back, also where it can be taken for a keyword. -/
theorem guarded_owned {good : Text → Prop} {read : Text → Option (Text × Text)}
    (hr : ReadsName good read) (hon : good "ON") {n table : Text} (hn : good n)
    (hb : ∀ c ∈ n, Text.isBlank c = false) (ht : IsName table) (ps : List Text) :
    guarded (owned read) (n ++ phrase (onTable table ++ ps)) = some ⟨n, table, phrase ps⟩ := by
  apply guarded_phrase hb (by decide) rfl (owned_phrase hr hn ht ps)
  intro _
  simp only [owned, hr "ON" hon, Option.bind_eq_bind, Option.bind_some]
  change (target? (phrase ("TABLE" :: table :: ps))).bind _ = none
  rw [target?_table]
  rfl

/-! ## Heads -/

/-- The word that stands for the mode of a definition. -/
def modeWords : Statement.Mode → List Text
  | .create => []
  | .overwrite => ["OVERWRITE"]

/-- A definition without its semicolon: the noun, the mode, and what is defined. -/
def definition (noun : Noun) (mode : Statement.Mode) (parts : List Text) : Text :=
  "DEFINE" ++ phrase (noun.keyword :: (modeWords mode ++ parts))

theorem definition_member (noun : Noun) (mode : Statement.Mode) (n table : Text)
    (ps : List Text) : definition noun mode (n :: (onTable table ++ ps)) =
      "DEFINE " ++ (noun.keyword ++ (mode.word ++ (" " ++ (n ++ (" ON TABLE " ++
        (table ++ phrase ps)))))) := by
  cases mode <;> rfl

theorem define_field (t : Text) : ("DEFINE " : Text) ++ (Noun.field.keyword ++ t) =
    "DEFINE FIELD" ++ t := rfl

theorem define_index (t : Text) : ("DEFINE " : Text) ++ (Noun.index.keyword ++ t) =
    "DEFINE INDEX" ++ t := rfl

theorem settled_definition (noun : Noun) (mode : Statement.Mode) {ps : List Text}
    (h : ∀ p ∈ ps, Script.Settled p) : Script.Settled (definition noun mode ps) := by
  apply Statement.settled_phrase (by decide)
  intro p hp
  rcases List.mem_cons.mp hp with rfl | hp
  · cases noun <;> decide
  rcases List.mem_append.mp hp with hp | hp
  · cases mode with
    | create => cases hp
    | overwrite =>
      rw [List.mem_singleton.mp hp]
      decide
  · exact h p hp

theorem settled_onTable {table : Text} (h : IsName table) :
    ∀ p ∈ onTable table, Script.Settled p := by
  simp only [onTable, List.forall_mem_cons]
  exact ⟨by decide, by decide, ⟨h.isTrimmed, h.closed⟩, by simp⟩

theorem isTrimmed_keyword (noun : Noun) : Text.IsTrimmed noun.keyword := by
  cases noun <;> decide

theorem trimStart_define (t : Text) : Text.trimStart ("DEFINE" ++ t) = "DEFINE" ++ t := rfl

theorem define?_phrase {noun : Noun} {k p : Text} (hk : Text.stripKeyword k noun.keyword = some [])
    (hp : Text.IsTrimmed p) (ps : List Text) :
    define? k ("DEFINE" ++ phrase (noun.keyword :: p :: ps)) = some (p ++ phrase ps) := by
  have hdefine : word? "define" ("DEFINE" ++ phrase (noun.keyword :: p :: ps)) =
      some (noun.keyword ++ phrase (p :: ps)) :=
    word?_phrase (by decide) (isTrimmed_keyword noun) _
  rw [define?, trimStart_define, hdefine, Option.bind_some, word?_phrase hk hp]

/-- What follows the noun and the mode of a definition is read the same in both modes. -/
theorem define?_guarded {α : Type} {read : Text → Option α} {noun : Noun} {k n : Text}
    {ps : List Text} {a : α} (hk : Text.stripKeyword k noun.keyword = some [])
    (hn : Text.IsTrimmed n) (hread : read (n ++ phrase ps) = some a)
    (hplain : guarded read (n ++ phrase ps) = some a) (mode : Statement.Mode) :
    (define? k (definition noun mode (n :: ps))).bind (guarded read) = some a := by
  cases mode with
  | create =>
    change (define? k ("DEFINE" ++ phrase (noun.keyword :: n :: ps))).bind _ = _
    rw [define?_phrase hk hn, Option.bind_some, hplain]
  | overwrite =>
    change (define? k ("DEFINE" ++ phrase (noun.keyword :: "OVERWRITE" :: n :: ps))).bind _ = _
    rw [define?_phrase hk (by decide), Option.bind_some, guarded_overwrite hn hread]

theorem field?_definition {n table : Text} (hn : IsPath n) (ht : IsName table)
    (mode : Statement.Mode) (ps : List Text) :
    field? (definition .field mode (n :: (onTable table ++ ps))) = some ⟨n, table, phrase ps⟩ :=
  define?_guarded (by decide) hn.isTrimmed (owned_phrase readsName_path? hn ht ps)
    (guarded_owned readsName_path? (IsName.isPath (by decide)) hn hn.isBlank_eq_false ht ps) mode

theorem index?_definition {n table : Text} (hn : IsName n) (ht : IsName table)
    (mode : Statement.Mode) (ps : List Text) :
    index? (definition .index mode (n :: (onTable table ++ ps))) = some ⟨n, table, phrase ps⟩ :=
  define?_guarded (by decide) hn.isTrimmed (owned_phrase readsName_name? hn ht ps)
    (guarded_owned readsName_name? (by decide) hn
      (fun c hc => isBlank_of_isNameChar (hn.2 c hc)) ht ps) mode

/-- The name of a table is read back, unless it is the word that allows a definition to replace
another one. -/
theorem table?_definition {n p : Text} (hn : IsName n)
    (hover : Text.sameLetters n "overwrite" = false) (hp : Text.IsTrimmed p) {ps : List Text}
    (hnot : Text.stripKeyword "not" (p ++ phrase ps) = none) (mode : Statement.Mode) :
    table? (definition .table mode (n :: p :: ps)) = some (n, phrase (p :: ps)) := by
  refine define?_guarded (by decide) hn.isTrimmed (name?_phrase hn _) ?_ mode
  refine guarded_phrase (fun c hc => isBlank_of_isNameChar (hn.2 c hc)) hp hnot
    (name?_phrase hn _) fun hfold => ?_
  have hlower : n.map Char.toLower = "overwrite" := map_toLower_of_fold (by decide) hfold
  rw [Text.sameLetters, hlower] at hover
  cases hover

theorem noun?_definition (noun : Noun) (mode : Statement.Mode) (ps : List Text) :
    ∃ rest, noun? (definition noun mode ps) = some (noun.keyword, rest) := by
  have hdefine : word? "define" (Text.trimStart (definition noun mode ps)) =
      some (noun.keyword ++ phrase (modeWords mode ++ ps)) :=
    word?_phrase (w := "DEFINE") (by decide) (isTrimmed_keyword noun) _
  have letters : ∀ c ∈ noun.keyword, Text.isLetter c = true := by cases noun <;> decide
  have stop : (phrase (modeWords mode ++ ps)).takeWhile Text.isLetter = [] := by
    cases modeWords mode ++ ps <;> rfl
  have word : (noun.keyword ++ phrase (modeWords mode ++ ps)).takeWhile Text.isLetter =
      noun.keyword := by
    rw [List.takeWhile_append_of_pos letters, stop, List.append_nil]
  refine ⟨(noun.keyword ++ phrase (modeWords mode ++ ps)).dropWhile Text.isLetter, ?_⟩
  simp only [noun?, hdefine, Option.bind_eq_bind, Option.bind_some, word]
  cases noun <;> rfl

end SchemaDrift.Head
