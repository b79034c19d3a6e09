import SchemaDrift.Proofs.Statement.Grants
import SchemaDrift.Proofs.Statement.Heads

namespace SchemaDrift.Statement

/-!
# Words side by side

The kind of a relation and the query of a view are known by two words with blanks between them. In
a phrase such a pair stands inside a part, or at the border of two parts.
-/

/-- The text from the second word on, if the text starts with the two words. -/
def behind? (first second t : Text) : Option Text :=
  ((Text.stripStart first t).bind Text.skipBlanks?).filter fun rest =>
    (Text.stripStart second rest).any Text.atWordEnd

/-- The text from the second word on, where the two words first stand side by side. -/
def pair? (first second : Text) (before : Option Char) : Text → Option Text
  | [] => none
  | c :: cs =>
    (if before.any Text.isWord then none else behind? first second (c :: cs)).or
      (pair? first second (some c) cs)

theorem query?_eq_pair? (before : Option Char) (t : Text) :
    query? before t = pair? "AS" "SELECT" before t := by
  induction t generalizing before with
  | nil => rfl
  | cons c cs ih =>
    rw [query?, pair?, ih]
    by_cases h : before.any Text.isWord
    · rw [if_pos h, if_pos h]
      rfl
    · rw [if_neg h, if_neg h]
      rfl

theorem any_bind_eq_isSome_filter {α β : Type} (o : Option α) (f : α → Option β) (p : β → Bool) :
    (o.bind f).any p = (o.filter fun a => (f a).any p).isSome := by
  cases o with
  | none => rfl
  | some a =>
    rw [Option.bind_some, Option.filter_some]
    cases (f a).any p <;> rfl

theorem hasRelation_eq_pair? (before : Option Char) (t : Text) :
    hasRelation before t = (pair? "TYPE" "RELATION" before t).isSome := by
  induction t generalizing before with
  | nil => rfl
  | cons c cs ih =>
    rw [hasRelation, pair?, ih, Option.isSome_or]
    by_cases h : before.any Text.isWord
    · rw [if_pos h, h]
      rfl
    · rw [if_neg h, Bool.eq_false_iff.mpr h, behind?, ← any_bind_eq_isSome_filter]
      rfl

/-! ## Words in front of a phrase -/

theorem stripStart_append_phrase {k : Text} (hk : ' ' ∉ k) (t : Text) (ps : List Text) :
    Text.stripStart k (t ++ phrase ps) = (Text.stripStart k t).map (· ++ phrase ps) := by
  induction k generalizing t with
  | nil => rfl
  | cons a k ih =>
    obtain ⟨ha, hk⟩ := not_or.mp fun hm => hk (List.mem_cons.mpr hm)
    cases t with
    | nil =>
      cases ps with
      | nil => rfl
      | cons p ps => simp [Text.stripStart, Ne.symm ha]
    | cons c cs =>
      rw [List.cons_append, Text.stripStart, Text.stripStart]
      split
      · exact ih hk cs
      · rfl

theorem atWordEnd_append_phrase (t : Text) (ps : List Text) :
    Text.atWordEnd (t ++ phrase ps) = Text.atWordEnd t := by
  cases t with
  | nil =>
    cases ps with
    | nil => rfl
    | cons p ps =>
      have hblank : Text.isWord ' ' = false := by decide
      simp [Text.atWordEnd, hblank]
  | cons c cs => rfl

theorem trimStart_append {t : Text} (h : ∃ c ∈ t, Text.isBlank c = false) (rest : Text) :
    Text.trimStart (t ++ rest) = Text.trimStart t ++ rest := by
  obtain ⟨c, hc, hb⟩ := h
  induction t with
  | nil => cases hc
  | cons d ds ih =>
    rw [List.cons_append]
    by_cases hd : Text.isBlank d
    · rw [Text.trimStart_cons_of_blank _ hd, Text.trimStart_cons_of_blank _ hd]
      rcases List.mem_cons.mp hc with rfl | hc
      · rw [hb] at hd
        cases hd
      · exact ih hc
    · have hd : Text.isBlank d = false := by simpa using hd
      rw [Text.trimStart_cons_of_not_blank _ hd, Text.trimStart_cons_of_not_blank _ hd]
      rfl

/-- Whether the text does not end with a blank. -/
def EndsSolid (t : Text) : Prop := ∀ c ∈ t.getLast?, Text.isBlank c = false

/-- Whether two words can stand side by side as parts of a phrase. -/
structure IsPair (first second : Text) : Prop where
  ne_nil : first ≠ []
  first : ' ' ∉ first
  second : ' ' ∉ second

theorem isPair_relation : IsPair "TYPE" "RELATION" := ⟨by decide, by decide, by decide⟩

theorem isPair_query : IsPair "AS" "SELECT" := ⟨by decide, by decide, by decide⟩

variable {first second : Text}

/-- Whether what comes first in a phrase does not start with the second word. -/
def NoSecond (second : Text) (ps : List Text) : Prop :=
  ∀ p ∈ ps.head?, Text.IsTrimmed p ∧ ¬second <+: p

theorem stripStart_eq_none_iff {k t : Text} : Text.stripStart k t = none ↔ ¬k <+: t := by
  rw [Option.eq_none_iff_forall_ne_some]
  simp only [ne_eq, Text.stripStart_eq_some_iff]
  constructor
  · rintro h ⟨r, rfl⟩
    exact h r rfl
  · rintro h r rfl
    exact h ⟨r, rfl⟩

/-- The two words stand at the start of a part just as in front of what follows it, unless the part
is the first word. -/
theorem behind?_append_phrase (hw : IsPair first second) {t : Text} (ht : EndsSolid t)
    {ps : List Text} (hnext : t = first → NoSecond second ps) :
    behind? first second (t ++ phrase ps) = (behind? first second t).map (· ++ phrase ps) := by
  rw [behind?, behind?, stripStart_append_phrase hw.first]
  cases hs : Text.stripStart first t with
  | none => rfl
  | some s =>
    have hjoin := Text.stripStart_eq_some_iff.mp hs
    simp only [Option.map_some, Option.bind_some]
    cases s with
    | nil =>
      have hno := hnext (by rw [hjoin, List.append_nil])
      cases ps with
      | nil => rfl
      | cons p ps =>
        obtain ⟨hp, hprefix⟩ := hno p rfl
        rw [List.nil_append, Head.skipBlanks?_phrase hp, Option.filter_some,
          stripStart_append_phrase hw.second, stripStart_eq_none_iff.mpr hprefix]
        rfl
    | cons c cs =>
      rw [List.cons_append, Text.skipBlanks?, Text.skipBlanks?]
      split
      · rename_i hc
        -- The blanks behind the first word end inside the text, as the text does not end with one.
        have solid : ∃ d ∈ cs, Text.isBlank d = false := by
          have hlast : t.getLast? = (c :: cs).getLast? := by
            rw [hjoin, List.getLast?_append_of_ne_nil _ (by simp)]
          cases hcs : cs.getLast? with
          | none =>
            rw [List.getLast?_eq_none_iff.mp hcs] at hlast
            have := ht c hlast
            rw [hc] at this
            cases this
          | some d =>
            refine ⟨d, List.mem_of_mem_getLast? hcs, ht d ?_⟩
            rw [hlast, List.getLast?_cons, hcs]
            rfl
        rw [trimStart_append solid, Option.filter_some, Option.filter_some,
          stripStart_append_phrase hw.second]
        cases Text.stripStart second (Text.trimStart cs) with
        | none => rfl
        | some v =>
          simp only [Option.map_some, Option.any_some, atWordEnd_append_phrase]
          split <;> rfl
      · rfl

theorem behind?_blank (hw : IsPair first second) (t : Text) :
    behind? first second (' ' :: t) = none := by
  cases first with
  | nil => exact absurd rfl hw.ne_nil
  | cons a k =>
    have ha : a ≠ ' ' := fun ha => hw.first (by rw [ha]; exact List.mem_cons_self)
    rw [behind?, Text.stripStart, if_neg ha]
    rfl

theorem pair?_blank (hw : IsPair first second) (before : Option Char) (t : Text) :
    pair? first second before (' ' :: t) = pair? first second none t := by
  have same : pair? first second (some ' ') t = pair? first second none t := by
    have hblank : Text.isWord ' ' = false := by decide
    cases t with
    | nil => rfl
    | cons c cs => simp [pair?, hblank]
  rw [pair?, behind?_blank hw, same]
  split <;> rfl

/-- Whether the text holds no pair of the two words and can be a part of a phrase. -/
structure NoPair (first second t : Text) : Prop where
  trimmed : Text.IsTrimmed t
  none : pair? first second none t = none

/-- Whether the text holds no pair and does not end with the first word, whatever follows. -/
def IsPlain (first second t : Text) : Prop :=
  Text.IsTrimmed t ∧ pair? first second none t = none ∧ ¬first <:+ t

instance (first second t : Text) : Decidable (IsPlain first second t) :=
  inferInstanceAs (Decidable
    (Text.IsTrimmed t ∧ pair? first second none t = none ∧ ¬first <:+ t))

/-! ## Words in a phrase -/

section Phrase

variable (hw : IsPair first second)

include hw

theorem pair?_append_phrase {t : Text} (ht : EndsSolid t) {ps : List Text}
    (hnext : first <:+ t → NoSecond second ps) (before : Option Char) :
    pair? first second before (t ++ phrase ps) =
      ((pair? first second before t).map (· ++ phrase ps)).or
        (pair? first second none (phrase ps)) := by
  -- Each suffix of the text may be the first word; `hnext` is about all of them.
  induction t generalizing before with
  | nil =>
    cases ps with
    | nil => rfl
    | cons p ps =>
      rw [List.nil_append, phrase_cons, pair?_blank hw, pair?_blank hw]
      rfl
  | cons c cs ih =>
    have hcs : EndsSolid cs := by
      intro d hd
      apply ht d
      rw [List.getLast?_cons, Option.mem_def.mp hd]
      rfl
    have rest := ih hcs (fun hs => hnext (hs.trans (List.suffix_cons c cs))) (some c)
    have here : behind? first second (c :: (cs ++ phrase ps)) =
        (behind? first second (c :: cs)).map (· ++ phrase ps) :=
      behind?_append_phrase hw ht fun he => hnext (he ▸ List.suffix_refl _)
    rw [List.cons_append, pair?, pair?, here, rest, Option.map_or, Option.or_assoc]
    split <;> rfl

theorem pair?_phrase_cons {p : Text} (hp : NoPair first second p) {ps : List Text}
    (hnext : first <:+ p → NoSecond second ps) :
    pair? first second none (phrase (p :: ps)) = pair? first second none (phrase ps) := by
  have solid : EndsSolid p := (Text.isTrimmed_iff.mp hp.trimmed).2.2
  rw [phrase_cons, pair?_blank hw,
    pair?_append_phrase hw solid hnext, hp.none]
  rfl

/-- Plain words in front of a phrase are gone past. -/
theorem pair?_phrase_append {ws : List Text} (hws : ∀ w ∈ ws, IsPlain first second w)
    (ps : List Text) :
    pair? first second none (phrase (ws ++ ps)) = pair? first second none (phrase ps) := by
  induction ws with
  | nil => rfl
  | cons w ws ih =>
    obtain ⟨trimmed, hnone, hplain⟩ := hws w List.mem_cons_self
    rw [List.cons_append, pair?_phrase_cons hw ⟨trimmed, hnone⟩ fun h => absurd h hplain]
    exact ih fun w' hm => hws w' (List.mem_cons_of_mem w hm)

theorem pair?_phrase_self {p rest : Text} (hp : Text.IsTrimmed p)
    (hstrip : Text.stripStart second p = some rest) (hend : Text.atWordEnd rest = true)
    (ps : List Text) :
    pair? first second none (phrase (first :: p :: ps)) = some (p ++ phrase ps) := by
  have here : behind? first second (first ++ phrase (p :: ps)) = some (p ++ phrase ps) := by
    rw [behind?, Text.stripStart_append, Option.bind_some, Head.skipBlanks?_phrase hp,
      Option.filter_some, stripStart_append_phrase hw.second, hstrip]
    simp only [Option.map_some, Option.any_some, atWordEnd_append_phrase, hend]
    rfl
  rw [phrase_cons, pair?_blank hw]
  cases first with
  | nil => exact absurd rfl hw.ne_nil
  | cons c cs =>
    rw [List.cons_append] at here
    rw [List.cons_append, pair?, here]
    rfl

theorem pair?_grantParts (hfor : IsPlain first second "FOR")
    (hop : ∀ op : Operation, IsPlain first second op.keyword) (hnext : ¬second <+: ("FOR" : Text))
    {gs : List (Operation × Text)} (h : ∀ g ∈ gs, NoPair first second g.2) :
    pair? first second none (phrase (grantParts gs)) = none := by
  induction gs with
  | nil => rfl
  | cons g gs ih =>
    have words : ∀ w ∈ [("FOR" : Text), g.1.keyword], IsPlain first second w := by
      simp only [List.mem_cons, List.not_mem_nil, or_false]
      rintro w (rfl | rfl)
      · exact hfor
      · exact hop g.1
    have parts : grantParts (g :: gs) =
        [("FOR" : Text), g.1.keyword] ++ g.2 :: grantParts gs := rfl
    have follows : NoSecond second (grantParts gs) := by
      cases gs with
      | nil => simp [NoSecond, grantParts]
      | cons g' gs =>
        rintro _ ⟨⟩
        exact ⟨by decide, hnext⟩
    rw [parts, pair?_phrase_append hw words,
      pair?_phrase_cons hw (h g List.mem_cons_self) fun _ => follows]
    exact ih fun g' hg' => h g' (List.mem_cons_of_mem g hg')

/-- A pair that stands in no expression of a grant does not stand in the permissions clause. -/
theorem pair?_permissionParts (hword : IsPlain first second "PERMISSIONS")
    (hfor : IsPlain first second "FOR")
    (hop : ∀ op : Operation, IsPlain first second op.keyword)
    (hnext : ¬second <+: ("FOR" : Text))
    {p : Permissions} (h : ∀ op, ∀ expr ∈ p.get op, NoPair first second expr) :
    pair? first second none (phrase (permissionParts p)) = none := by
  have granted : pair? first second none (phrase (grantParts p.granted)) = none :=
    pair?_grantParts hw hfor hop hnext fun g hg => h g.1 g.2 (get_of_mem_granted hg)
  have behind : ∀ ps : List Text, pair? first second none (phrase ps) = none →
      pair? first second none (phrase (("PERMISSIONS" : Text) :: ps)) = none := by
    intro ps hps
    have word : ∀ w ∈ [("PERMISSIONS" : Text)], IsPlain first second w := by simpa using hword
    rw [← hps]
    exact pair?_phrase_append hw word ps
  unfold permissionParts
  split
  · rfl
  · apply behind _
    split
    · rename_i expr hu
      split
      · have hall := Permissions.uniform?_eq_some_iff.mp hu
        have hexpr := h .select expr (by rw [hall]; rfl)
        exact pair?_phrase_cons hw hexpr fun _ => by simp [NoSecond]
      · exact granted
    · exact granted

end Phrase

end SchemaDrift.Statement
