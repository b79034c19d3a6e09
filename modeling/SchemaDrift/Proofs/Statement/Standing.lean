import SchemaDrift.Proofs.Text.Parts
import SchemaDrift.Statement.Keyword

namespace SchemaDrift.Keyword

/-!
# Keywords in joined texts

A keyword holds no character that may stand beside it. So when two texts are joined at such a
character, no occurrence of the keyword reaches from one into the other, and a scan for it can be
taken text by text.
-/

/-- Whether the keyword holds no character that may stand beside a keyword. -/
def IsSolid (keyword : Text) : Prop := keyword ≠ [] ∧ ∀ c ∈ keyword, isEdge (some c) = false

instance (keyword : Text) : Decidable (IsSolid keyword) :=
  inferInstanceAs (Decidable (keyword ≠ [] ∧ ∀ c ∈ keyword, isEdge (some c) = false))

/-- Whether the keyword stands alone nowhere in the text. -/
def Free (keyword t : Text) : Prop := occurs keyword t = false

instance (keyword t : Text) : Decidable (Free keyword t) :=
  inferInstanceAs (Decidable (occurs keyword t = false))

theorem free_iff {keyword t : Text} : Free keyword t ↔ cut? keyword none t = none := by
  simp [Free, occurs]

/-- Behind a text in which a keyword does not stand, the next edge does not complete it. -/
theorem standing?_append_eq_none {keyword t rest : Text} {before : Option Char}
    (hk : IsSolid keyword) (h : standing? keyword before t = none)
    (hr : isEdge rest.head?) : standing? keyword before (t ++ rest) = none := by
  unfold standing? at h ⊢
  split
  · rename_i hb
    rw [if_pos hb] at h
    cases hs : Text.stripStart keyword (t ++ rest) with
    | none => rfl
    | some r =>
      apply Option.filter_eq_none_iff.mpr
      rintro _ ⟨⟩ hedge
      have hjoin := Text.stripStart_eq_some_iff.mp hs
      rcases List.append_eq_append_iff.mp hjoin with ⟨a, hka, hra⟩ | ⟨a, hta, hra⟩
      · -- The keyword would reach into `rest`, whose first character is an edge.
        cases a with
        | nil =>
          have hstrip : Text.stripStart keyword t = some [] := by
            rw [Text.stripStart_eq_some_iff, hka]
            simp
          rw [hstrip] at h
          cases h
        | cons c cs =>
          have hc : isEdge (some c) = true := by simpa [hra] using hr
          simp [hk.2 c (by simp [hka])] at hc
      · have hstrip : Text.stripStart keyword t = some a := Text.stripStart_eq_some_iff.mpr hta
        have hnone := Option.filter_eq_none_iff.mp h a hstrip
        cases a with
        | nil => exact hnone rfl
        | cons c cs => exact hnone (by simpa [hra] using hedge)
  · rfl

theorem standing?_cons_edge {keyword : Text} (hk : IsSolid keyword) {c : Char}
    (hc : isEdge (some c) = true) (before : Option Char) (rest : Text) :
    standing? keyword before (c :: rest) = none := by
  obtain ⟨hne, hsolid⟩ := hk
  cases keyword with
  | nil => exact absurd rfl hne
  | cons k ks =>
    have hkc : k ≠ c := by
      rintro rfl
      simp [hsolid k List.mem_cons_self] at hc
    simp [standing?, Text.stripStart, hkc]

theorem standing?_self (keyword : Text) {rest : Text} {before : Option Char} (hb : isEdge before)
    (hr : isEdge rest.head?) : standing? keyword before (keyword ++ rest) = some rest := by
  simp [standing?, hb, hr]

/-! ## Cutting at a keyword -/

theorem cut?_cons_edge {keyword : Text} (hk : IsSolid keyword) {c : Char}
    (hc : isEdge (some c) = true) (before : Option Char) (rest : Text) :
    cut? keyword before (c :: rest) =
      (cut? keyword none rest).map fun cut => (c :: cut.1, cut.2) := by
  have same : cut? keyword (some c) rest = cut? keyword none rest := by
    cases rest with
    | nil => rfl
    | cons d ds =>
      simp only [cut?, standing?, hc]
      rfl
  rw [cut?, standing?_cons_edge hk hc, same]

/-- The character before a text matters only where the text starts with a keyword. -/
theorem cut?_of_edge_head {keyword rest : Text} (hk : IsSolid keyword) (hr : isEdge rest.head?)
    (before : Option Char) : cut? keyword before rest = cut? keyword none rest := by
  cases rest with
  | nil => rfl
  | cons c cs => rw [cut?_cons_edge hk hr, cut?_cons_edge hk hr]

theorem cut?_append {keyword t rest : Text} {before : Option Char} (hk : IsSolid keyword)
    (h : cut? keyword before t = none) (hr : isEdge rest.head?) :
    cut? keyword before (t ++ rest) =
      (cut? keyword none rest).map fun cut => (t ++ cut.1, cut.2) := by
  -- The character before the text changes along the way, so the induction is for any of them.
  induction t generalizing before with
  | nil => simp [cut?_of_edge_head hk hr]
  | cons c cs ih =>
    unfold cut? at h
    split at h
    · cases h
    · rename_i hs
      have hnone := standing?_append_eq_none hk hs hr
      rw [List.cons_append] at hnone
      rw [List.cons_append, cut?, hnone, ih (Option.map_eq_none_iff.mp h), Option.map_map]
      rfl

theorem cut?_self {keyword rest : Text} {before : Option Char} (hk : IsSolid keyword)
    (hb : isEdge before) (hr : isEdge rest.head?) :
    cut? keyword before (keyword ++ rest) = some ([], rest) := by
  have hs := standing?_self keyword hb hr
  obtain ⟨hne, -⟩ := hk
  cases keyword with
  | nil => exact absurd rfl hne
  | cons k ks =>
    rw [List.cons_append] at hs ⊢
    rw [cut?, hs]

/-- A text without edges holds no keyword but itself. -/
theorem cut?_eq_none_of_ne {keyword t : Text} (ht : ∀ c ∈ t, isEdge (some c) = false)
    {before : Option Char} (hne : isEdge before → t ≠ keyword) : cut? keyword before t = none := by
  induction t generalizing before with
  | nil => rfl
  | cons c cs ih =>
    have hs : standing? keyword before (c :: cs) = none := by
      unfold standing?
      split
      · rename_i hb
        apply Option.filter_eq_none_iff.mpr
        intro rest hstrip hedge
        have hjoin := Text.stripStart_eq_some_iff.mp hstrip
        cases rest with
        | nil => exact hne hb (by simpa using hjoin)
        | cons d ds =>
          have hd : isEdge (some d) = true := hedge
          simp [ht d (by simp [hjoin])] at hd
      · rfl
    have hrest : cut? keyword (some c) cs = none := by
      apply ih (fun d hd => ht d (List.mem_cons_of_mem c hd))
      intro hc
      simp [ht c List.mem_cons_self] at hc
    rw [cut?, hs, hrest]
    rfl

theorem free_of_ne {keyword t : Text} (ht : IsSolid t) (hne : t ≠ keyword) : Free keyword t :=
  free_iff.mpr (cut?_eq_none_of_ne ht.2 fun _ => hne)

theorem not_free_self {keyword : Text} (hk : IsSolid keyword) : ¬Free keyword keyword := by
  intro h
  have hself : cut? keyword none (keyword ++ []) = some ([], []) := cut?_self hk rfl rfl
  rw [List.append_nil, free_iff.mp h] at hself
  cases hself

/-! ## The text up to a keyword -/

theorem upTo_cons_edge {keywords : List Text} (hk : ∀ k ∈ keywords, IsSolid k) {c : Char}
    (hc : isEdge (some c) = true) (before : Option Char) (rest : Text) :
    upTo keywords before (c :: rest) = c :: upTo keywords none rest := by
  have here : (keywords.any fun k => (standing? k before (c :: rest)).isSome) = false := by
    simp only [List.any_eq_false]
    intro k hkm
    simp [standing?_cons_edge (hk k hkm) hc]
  have same : upTo keywords (some c) rest = upTo keywords none rest := by
    cases rest with
    | nil => rfl
    | cons d ds =>
      simp only [upTo, standing?, hc]
      rfl
  rw [upTo, here, same]
  rfl

theorem upTo_of_edge_head {keywords : List Text} {rest : Text} (hk : ∀ k ∈ keywords, IsSolid k)
    (hr : isEdge rest.head?) (before : Option Char) :
    upTo keywords before rest = upTo keywords none rest := by
  cases rest with
  | nil => rfl
  | cons c cs => rw [upTo_cons_edge hk hr, upTo_cons_edge hk hr]

theorem upTo_append {keywords : List Text} {t rest : Text} {before : Option Char}
    (hk : ∀ k ∈ keywords, IsSolid k) (h : ∀ k ∈ keywords, cut? k before t = none)
    (hr : isEdge rest.head?) :
    upTo keywords before (t ++ rest) = t ++ upTo keywords none rest := by
  induction t generalizing before with
  | nil => simp [upTo_of_edge_head hk hr]
  | cons c cs ih =>
    have hs : ∀ k ∈ keywords, standing? k before (c :: cs) = none ∧ cut? k (some c) cs = none := by
      intro k hkm
      have hcut := h k hkm
      unfold cut? at hcut
      split at hcut
      · cases hcut
      · exact ⟨by assumption, Option.map_eq_none_iff.mp hcut⟩
    have here :
        (keywords.any fun k => (standing? k before (c :: (cs ++ rest))).isSome) = false := by
      simp only [List.any_eq_false]
      intro k hkm
      have hnone := standing?_append_eq_none (hk k hkm) (hs k hkm).1 hr
      rw [List.cons_append] at hnone
      simp [hnone]
    rw [List.cons_append, upTo, here, ih fun k hkm => (hs k hkm).2]
    rfl

theorem upTo_self {keywords : List Text} {keyword rest : Text} {before : Option Char}
    (hk : IsSolid keyword) (hm : keyword ∈ keywords) (hb : isEdge before)
    (hr : isEdge rest.head?) : upTo keywords before (keyword ++ rest) = [] := by
  have hs := standing?_self keyword hb hr
  obtain ⟨hne, -⟩ := hk
  cases keyword with
  | nil => exact absurd rfl hne
  | cons k ks =>
    rw [List.cons_append] at hs ⊢
    have here : (keywords.any fun k' => (standing? k' before (k :: (ks ++ rest))).isSome) = true :=
      List.any_eq_true.mpr ⟨_, hm, by simp [hs]⟩
    rw [upTo, here]
    rfl

/-! ## Splitting at a keyword -/

theorem split_ne_nil (keyword : Text) (skip : Nat) (before : Option Char) (t : Text) :
    split keyword skip before t ≠ [] := by
  induction t generalizing skip before with
  | nil => simp [split]
  | cons c cs ih =>
    cases skip with
    | succ n => exact ih n (some c)
    | zero =>
      rw [split]
      split
      · simp
      · cases hs : split keyword 0 (some c) cs <;> simp [Text.consHead]

theorem split_cons_edge {keyword : Text} (hk : IsSolid keyword) {c : Char}
    (hc : isEdge (some c) = true) (before : Option Char) (rest : Text) :
    split keyword 0 before (c :: rest) = Text.prepend [c] (split keyword 0 none rest) := by
  have same : split keyword 0 (some c) rest = split keyword 0 none rest := by
    cases rest with
    | nil => rfl
    | cons d ds =>
      simp only [split, standing?, hc]
      rfl
  rw [split, standing?_cons_edge hk hc, same]
  cases split keyword 0 none rest <;> rfl

theorem split_of_edge_head {keyword rest : Text} (hk : IsSolid keyword) (hr : isEdge rest.head?)
    (before : Option Char) : split keyword 0 before rest = split keyword 0 none rest := by
  cases rest with
  | nil => rfl
  | cons c cs => rw [split_cons_edge hk hr, split_cons_edge hk hr]

theorem split_append {keyword t rest : Text} {before : Option Char} (hk : IsSolid keyword)
    (h : cut? keyword before t = none) (hr : isEdge rest.head?) :
    split keyword 0 before (t ++ rest) = Text.prepend t (split keyword 0 none rest) := by
  induction t generalizing before with
  | nil =>
    rw [Text.prepend_nil (split_ne_nil keyword 0 none rest), List.nil_append,
      split_of_edge_head hk hr]
  | cons c cs ih =>
    unfold cut? at h
    split at h
    · cases h
    · rename_i hs
      have hnone := standing?_append_eq_none hk hs hr
      rw [List.cons_append] at hnone
      rw [List.cons_append, split, hnone, ih (Option.map_eq_none_iff.mp h),
        ← Text.consHead_prepend]
      rfl

/-- The characters of the keyword that was just met are passed over. -/
theorem exists_split_skip (keyword t rest : Text) (before : Option Char) :
    ∃ before', split keyword t.length before (t ++ rest) = split keyword 0 before' rest := by
  induction t generalizing before with
  | nil => exact ⟨before, rfl⟩
  | cons c cs ih => exact ih (some c)

theorem split_self {keyword rest : Text} {before : Option Char} (hk : IsSolid keyword)
    (hb : isEdge before) (hr : isEdge rest.head?) :
    split keyword 0 before (keyword ++ rest) = [] :: split keyword 0 none rest := by
  have hs := standing?_self keyword hb hr
  cases keyword with
  | nil => exact absurd rfl hk.1
  | cons k ks =>
    obtain ⟨before', hskip⟩ := exists_split_skip (k :: ks) ks rest (some k)
    rw [List.cons_append] at hs ⊢
    rw [split, hs, List.length_cons, Nat.add_sub_cancel, hskip, split_of_edge_head hk hr]
    rfl

end SchemaDrift.Keyword
