import SchemaDrift.Model.OfTable
import SchemaDrift.Proofs.Statement.Names
import SchemaDrift.Proofs.Text.Parts

namespace SchemaDrift.TypeExpr

/-!
# Forms of type expressions

Brackets that close what they open hide the separators between them. So a type that is built from
parts is split into these parts, and its normal form is built from their normal forms.
-/

/-- Whether the text closes the brackets that are open before it, and its own. -/
def Balanced (depth : Int) : Text → Prop
  | [] => depth = 0
  | c :: cs => 0 ≤ depth + bracket c ∧ Balanced (depth + bracket c) cs

theorem Balanced.append {d e : Int} {a b : Text} (ha : Balanced d a) (hb : Balanced e b)
    (he : 0 ≤ e) : Balanced (d + e) (a ++ b) := by
  induction a generalizing d with
  | nil =>
    have : d = 0 := ha
    simpa [this] using hb
  | cons c a ih =>
    obtain ⟨hnonneg, ha⟩ := ha
    have shift : d + e + bracket c = d + bracket c + e := by omega
    refine ⟨by omega, ?_⟩
    rw [shift]
    exact ih ha

theorem Balanced.append_zero {a b : Text} (ha : Balanced 0 a) (hb : Balanced 0 b) :
    Balanced 0 (a ++ b) := ha.append hb (by omega)

theorem balanced_of_forall {t : Text} (h : ∀ c ∈ t, bracket c = 0) : Balanced 0 t := by
  induction t with
  | nil => rfl
  | cons c t ih =>
    have hc := h c List.mem_cons_self
    refine ⟨by omega, ?_⟩
    rw [hc]
    exact ih fun d hd => h d (List.mem_cons_of_mem c hd)

theorem balanced_join {sep : Char} (hsep : bracket sep = 0) {parts : List Text}
    (h : ∀ p ∈ parts, Balanced 0 p) : Balanced 0 (Text.join [sep] parts) := by
  induction parts with
  | nil => rfl
  | cons p parts ih =>
    have rest := ih fun q hq => h q (List.mem_cons_of_mem p hq)
    cases parts with
    | nil => simpa using h p List.mem_cons_self
    | cons q parts =>
      rw [Text.join_cons_cons]
      refine (h p List.mem_cons_self).append_zero (Balanced.append_zero ?_ rest)
      exact balanced_of_forall (by simpa using hsep)

/-! ## Splitting -/

section Split

variable {sep : Char} {t : Text}

theorem splitFrom_ne_nil (sep : Char) (d : Int) (t : Text) : splitFrom sep d t ≠ [] := by
  cases t with
  | nil => simp [splitFrom]
  | cons c t =>
    rw [splitFrom]
    split
    · simp
    · cases splitFrom sep (d + bracket c) t <;> simp [Text.consHead]

/-- Whether no separator stands outside all brackets. -/
def Whole (sep : Char) (t : Text) : Prop := splitTop sep t = [t]

instance (sep : Char) (t : Text) : Decidable (Whole sep t) :=
  inferInstanceAs (Decidable (splitTop sep t = [t]))

theorem splitFrom_tail {c : Char} {d : Int} (h : splitFrom sep d (c :: t) = [c :: t]) :
    ¬ (c = sep ∧ d = 0) ∧ splitFrom sep (d + bracket c) t = [t] := by
  rw [splitFrom] at h
  split at h
  · cases h
  · rename_i hne
    refine ⟨hne, ?_⟩
    cases hs : splitFrom sep (d + bracket c) t with
    | nil => exact absurd hs (splitFrom_ne_nil _ _ t)
    | cons p parts =>
      rw [hs, Text.consHead] at h
      simp only [List.cons.injEq, true_and] at h
      rw [h.1, h.2]

/-- A text that hides its separators goes in front of the first part of what follows. -/
theorem splitFrom_append {d e : Int} (hb : Balanced e t)
    (hw : splitFrom sep (e + d) t = [t]) (rest : Text) :
    splitFrom sep (e + d) (t ++ rest) = Text.prepend t (splitFrom sep d rest) := by
  induction t generalizing e with
  | nil =>
    have : e = 0 := hb
    rw [this, Int.zero_add, List.nil_append, Text.prepend_nil (splitFrom_ne_nil sep d rest)]
  | cons c t ih =>
    have shift : e + d + bracket c = e + bracket c + d := by omega
    obtain ⟨hne, tail⟩ := splitFrom_tail hw
    rw [shift] at tail
    rw [List.cons_append, splitFrom, if_neg hne, shift, ih hb.2 tail, Text.consHead_prepend]

/-- Inside brackets nothing is split. -/
theorem splitFrom_of_balanced {d e : Int} (hd : 0 < d) (hb : Balanced e t) (he : 0 ≤ e) :
    splitFrom sep (e + d) t = [t] := by
  induction t generalizing e with
  | nil => rfl
  | cons c t ih =>
    obtain ⟨hnonneg, hb⟩ := hb
    have shift : e + d + bracket c = e + bracket c + d := by omega
    rw [splitFrom, if_neg (by omega), shift, ih hb hnonneg]
    rfl

theorem splitTop_append (hb : Balanced 0 t) (hw : Whole sep t) (rest : Text) :
    splitTop sep (t ++ rest) = Text.prepend t (splitTop sep rest) := by
  have hw : splitFrom sep (0 + 0) t = [t] := hw
  exact splitFrom_append hb hw rest

theorem Whole.append {a b : Text} (hb : Balanced 0 a) (ha : Whole sep a) (hw : Whole sep b) :
    Whole sep (a ++ b) := by
  rw [Whole, splitTop_append hb ha, hw]
  rfl

theorem whole_of_not_mem (h : sep ∉ t) : Whole sep t := by
  have all (d : Int) : splitFrom sep d t = [t] := by
    induction t generalizing d with
    | nil => rfl
    | cons c t ih =>
      obtain ⟨hc, ht⟩ := not_or.mp fun hm => h (List.mem_cons.mpr hm)
      rw [splitFrom, if_neg (fun he => hc he.1.symm), ih ht]
      rfl
  exact all 0

theorem splitTop_join {parts : List Text} (hne : parts ≠ [])
    (h : ∀ p ∈ parts, Balanced 0 p ∧ Whole sep p) :
    splitTop sep (Text.join [sep] parts) = parts := by
  induction parts with
  | nil => exact absurd rfl hne
  | cons p parts ih =>
    obtain ⟨hb, hw⟩ := h p List.mem_cons_self
    cases parts with
    | nil =>
      rw [Text.join_singleton]
      exact hw
    | cons q parts =>
      have rest := ih (by simp) fun r hr => h r (List.mem_cons_of_mem p hr)
      rw [Text.join_cons_cons, splitTop_append hb hw, List.singleton_append, splitTop, splitFrom,
        if_pos ⟨rfl, rfl⟩]
      rw [splitTop] at rest
      simp [rest]

/-- Joining the parts gives the text back. -/
theorem join_splitTop (sep : Char) (t : Text) : Text.join [sep] (splitTop sep t) = t := by
  have all (d : Int) : Text.join [sep] (splitFrom sep d t) = t := by
    induction t generalizing d with
    | nil => rfl
    | cons c t ih =>
      rw [splitFrom]
      split
      · rename_i hc
        cases hs : splitFrom sep d t with
        | nil => exact absurd hs (splitFrom_ne_nil sep d t)
        | cons p parts =>
          have rest := ih d
          rw [hs] at rest
          rw [Text.join_cons_cons, rest, hc.1]
          rfl
      · rw [Text.join_consHead _ _ _ (splitFrom_ne_nil sep _ t), ih]
  exact all 0

end Split

/-! ## Atoms and applications -/

/-- Whether the text has no blanks and nothing that a type is split at. -/
def IsAtom (t : Text) : Prop :=
  ∀ c ∈ t, Text.isBlank c = false ∧ bracket c = 0 ∧ c ≠ '|' ∧ c ≠ ','

instance (t : Text) : Decidable (IsAtom t) :=
  inferInstanceAs (Decidable (∀ c ∈ t, Text.isBlank c = false ∧ bracket c = 0 ∧ c ≠ '|' ∧ c ≠ ','))

/-- A name with arguments. -/
def application (name : Text) (args : List Text) : Text :=
  name ++ '<' :: (Text.join "," args ++ ['>'])

/-- A type that is its own normal form and can be an argument. -/
structure Settled (t : Text) : Prop where
  blankless : ∀ c ∈ t, Text.isBlank c = false
  balanced : Balanced 0 t
  whole : Whole ',' t
  normal : normalUnion t = t

theorem IsAtom.not_mem {a : Text} (h : IsAtom a) {c : Char}
    (hc : Text.isBlank c = true ∨ bracket c ≠ 0 ∨ c = '|' ∨ c = ',') : c ∉ a := by
  intro hm
  obtain ⟨hblank, hbracket, hpipe, hcomma⟩ := h c hm
  rcases hc with hc | hc | hc | hc
  · rw [hblank] at hc
    cases hc
  · exact hc hbracket
  · exact hpipe hc
  · exact hcomma hc

theorem joinTerms_singleton (t : Text) : joinTerms [t] = t := by simp [joinTerms]

theorem normalUnion_of_whole {t : Text} (h : Whole '|' t) : normalUnion t = normalTerm t := by
  rw [normalUnion_eq, show splitTop '|' t = [t] from h, List.map_singleton, joinTerms_singleton]

theorem application?_eq_none {t : Text} (h : '<' ∉ t) : application? t = none := by
  cases hc : application? t with
  | none => rfl
  | some parts =>
    obtain ⟨name, args⟩ := parts
    rw [eq_of_application? hc] at h
    simp at h

theorem cutAt_char {c : Char} {a : Text} (h : c ∉ a) (b : Text) :
    Text.cutAt [c] (a ++ c :: b) = some (a, b) := by
  induction a with
  | nil => simp [Text.cutAt, Text.stripStart]
  | cons d a ih =>
    obtain ⟨hd, ha⟩ := not_or.mp fun hm => h (List.mem_cons.mpr hm)
    rw [List.cons_append, Text.cutAt, Text.stripStart, if_neg hd, ih ha]
    rfl

theorem application?_application {name : Text} (h : '<' ∉ name) (args : List Text) :
    application? (application name args) = some (name, Text.join "," args) := by
  have cut : Text.cutAt "<" (application name args) =
      some (name, Text.join "," args ++ ['>']) := cutAt_char h _
  have close : Text.stripEnd ">" (Text.join "," args ++ ['>']) = some (Text.join "," args) :=
    Text.stripEnd_eq_some_iff.mpr rfl
  simp only [application?, cut, close, Option.bind_eq_bind, Option.bind_some]
  rfl

theorem IsAtom.settled {a : Text} (h : IsAtom a) : Settled a where
  blankless c hc := (h c hc).1
  balanced := balanced_of_forall fun c hc => (h c hc).2.1
  whole := whole_of_not_mem (h.not_mem (by decide))
  normal := by
    rw [normalUnion_of_whole (whole_of_not_mem (h.not_mem (by decide))),
      normalTerm_of_atom (application?_eq_none (h.not_mem (by decide)))]

section Application

variable {name : Text} {args : List Text}

theorem balanced_application (hn : Balanced 0 name) (h : ∀ a ∈ args, Balanced 0 a) :
    Balanced 0 (application name args) := by
  refine hn.append_zero ⟨by decide, ?_⟩
  have close : Balanced 1 ['>'] := ⟨by decide, rfl⟩
  have inner : Balanced 0 (Text.join "," args) := balanced_join (by decide) h
  exact inner.append close (by decide)

theorem whole_application {sep : Char} (hsep : bracket sep = 0) (hn : Balanced 0 name)
    (hw : Whole sep name) (h : ∀ a ∈ args, Balanced 0 a) : Whole sep (application name args) := by
  have inner : splitFrom sep 1 (Text.join "," args ++ ['>']) =
      [Text.join "," args ++ ['>']] := by
    have hb : Balanced 0 (Text.join "," args) := balanced_join (by decide) h
    have hw : splitFrom sep (0 + 1) (Text.join "," args) = [Text.join "," args] :=
      splitFrom_of_balanced (by omega) hb (by omega)
    have split := splitFrom_append hb hw ['>']
    have hne : '>' ≠ sep := by
      rintro rfl
      exact absurd hsep (by decide)
    rw [show (0 : Int) + 1 = 1 from rfl] at split
    rw [split]
    simp [splitFrom, hne, Text.consHead, Text.prepend]
  refine Whole.append hn hw ?_
  have hne : '<' ≠ sep := by
    rintro rfl
    exact absurd hsep (by decide)
  rw [Whole, splitTop, splitFrom, if_neg fun he => hne he.1,
    show (0 : Int) + bracket '<' = 1 from rfl, inner]
  rfl

theorem normalUnion_application (hn : IsAtom name) (hne : args ≠ [])
    (h : ∀ a ∈ args, Balanced 0 a ∧ Whole ',' a) :
    normalUnion (application name args) = applyName name (args.map normalUnion) := by
  have balanced : ∀ a ∈ args, Balanced 0 a := fun a ha => (h a ha).1
  have whole : Whole '|' (application name args) :=
    whole_application (by decide) hn.settled.balanced
      (whole_of_not_mem (hn.not_mem (by decide))) balanced
  rw [normalUnion_of_whole whole, normalTerm_of_application
    (application?_application (hn.not_mem (by decide)) args)]
  rw [show splitTop ',' (Text.join "," args) = args from splitTop_join hne h]

theorem settled_application (hn : IsAtom name) (hne : args ≠ []) (h : ∀ a ∈ args, Settled a)
    (hany : (name = "array" ∨ name = "set") → args ≠ [("any" : Text)]) :
    Settled (application name args) where
  blankless := by
    intro c hc
    rcases List.mem_append.mp hc with hc | hc
    · exact hn.settled.blankless c hc
    · rcases List.mem_cons.mp hc with rfl | hc
      · decide
      · rcases List.mem_append.mp hc with hc | hc
        · rcases Text.mem_join hc with hc | ⟨a, ha, hc⟩
          · rw [List.mem_singleton.mp hc]
            decide
          · exact (h a ha).blankless c hc
        · rw [List.mem_singleton.mp hc]
          decide
  balanced := balanced_application hn.settled.balanced fun a ha => (h a ha).balanced
  whole := whole_application (by decide) hn.settled.balanced hn.settled.whole
    fun a ha => (h a ha).balanced
  normal := by
    have same : args.map normalUnion = args := by
      conv_rhs => rw [← List.map_id args]
      exact List.map_congr_left fun a ha => (h a ha).normal
    rw [normalUnion_application hn hne fun a ha => ⟨(h a ha).balanced, (h a ha).whole⟩, same,
      applyName, if_neg fun he => hany he.1 he.2]
    simp [application]

end Application

end SchemaDrift.TypeExpr
