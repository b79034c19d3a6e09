import Mathlib.Data.List.DropRight
import SchemaDrift.Statement.Clause

namespace SchemaDrift.Text

/-!
# Trimmed texts

A text with neither end blank comes back when it is trimmed, however many blanks are put around it.
-/

theorem dropEndWhile_eq_rdropWhile (p : Char → Bool) (t : Text) :
    dropEndWhile p t = t.rdropWhile p := by
  induction t using List.reverseRecOn with
  | nil => rfl
  | append_singleton t c ih =>
    rw [List.rdropWhile_concat, ← ih]
    clear ih
    induction t with
    | nil => by_cases h : p c <;> simp [dropEndWhile, h]
    | cons d t ih =>
      rw [List.cons_append, dropEndWhile, ih]
      by_cases h : p c
      · simp only [h, if_true]
        rfl
      · simp only [h]
        cases t <;> rfl

theorem dropEndWhile_eq_self_iff {p : Char → Bool} {t : Text} :
    dropEndWhile p t = t ↔ ∀ c ∈ t.getLast?, p c = false := by
  rw [dropEndWhile_eq_rdropWhile, List.rdropWhile_eq_self_iff]
  constructor
  · intro h c hc
    obtain ⟨hne, rfl⟩ := List.mem_getLast?_eq_getLast hc
    simpa using h hne
  · intro h hne
    simp [h _ (List.getLast_mem_getLast? hne)]

theorem dropEndWhile_append_of_all {p : Char → Bool} (t : Text) {s : Text}
    (h : ∀ c ∈ s, p c = true) : dropEndWhile p (t ++ s) = dropEndWhile p t := by
  induction s using List.reverseRecOn with
  | nil => simp
  | append_singleton s c ih =>
    have hc : p c = true := h c (by simp)
    rw [dropEndWhile_eq_rdropWhile, ← List.append_assoc, List.rdropWhile_concat_pos p _ c hc,
      ← dropEndWhile_eq_rdropWhile]
    exact ih fun d hd => h d (by simp [hd])

theorem exists_dropEndWhile_append (p : Char → Bool) (t : Text) :
    ∃ s, t = dropEndWhile p t ++ s ∧ ∀ c ∈ s, p c = true := by
  refine ⟨t.rtakeWhile p, ?_, fun c hc => List.mem_rtakeWhile_imp hc⟩
  rw [dropEndWhile_eq_rdropWhile, List.rdropWhile_append_rtakeWhile]

/-- Blanks behind something that is not blank are trimmed. -/
theorem exists_trimEnd_append {c : Char} (hc : isBlank c = false) (a s : Text) :
    ∃ m r, s = m ++ r ∧ (∀ d ∈ r, isBlank d = true) ∧ trimEnd (a ++ c :: s) = a ++ c :: m := by
  induction s using List.reverseRecOn with
  | nil =>
    refine ⟨[], [], rfl, by simp, dropEndWhile_eq_self_iff.mpr fun d hd => ?_⟩
    rw [List.getLast?_concat] at hd
    exact Option.some.inj hd ▸ hc
  | append_singleton s d ih =>
    have regroup : a ++ c :: (s ++ [d]) = (a ++ c :: s) ++ [d] := by simp
    by_cases hd : isBlank d = true
    · obtain ⟨m, r, rfl, hr, htrim⟩ := ih
      refine ⟨m, r ++ [d], by simp, List.forall_mem_append.mpr ⟨hr, by simpa using hd⟩, ?_⟩
      rw [regroup, trimEnd, dropEndWhile_append_of_all _ (by simpa using hd)]
      exact htrim
    · refine ⟨s ++ [d], [], by simp, by simp, ?_⟩
      rw [regroup]
      refine dropEndWhile_eq_self_iff.mpr fun e he => ?_
      rw [List.getLast?_concat] at he
      exact Option.some.inj he ▸ Bool.eq_false_iff.mpr hd

/-- Whether there is something in the text and trimming leaves it alone. -/
def IsTrimmed (t : Text) : Prop := t ≠ [] ∧ trim t = t

instance (t : Text) : Decidable (IsTrimmed t) := inferInstanceAs (Decidable (t ≠ [] ∧ trim t = t))

theorem isTrimmed_iff {t : Text} :
    IsTrimmed t ↔ t ≠ [] ∧ (∀ c ∈ t.head?, isBlank c = false) ∧
      ∀ c ∈ t.getLast?, isBlank c = false := by
  cases t with
  | nil => simp [IsTrimmed]
  | cons c cs =>
    by_cases hb : isBlank c = true
    · have shorter : (trim (c :: cs)).length < (c :: cs).length := by
        have h₁ := (isPrefix_dropEndWhile isBlank (trimStart cs)).length_le
        have h₂ := (List.dropWhile_sublist (p := isBlank) (l := cs)).length_le
        rw [trim, trimStart_cons_of_blank cs hb, trimEnd, List.length_cons]
        rw [trimStart] at h₁ ⊢
        omega
      have : trim (c :: cs) ≠ c :: cs := fun h => by simp [h] at shorter
      simp [IsTrimmed, this, hb]
    · have hb : isBlank c = false := by simpa using hb
      rw [IsTrimmed, trim, trimStart_cons_of_not_blank cs hb, trimEnd, dropEndWhile_eq_self_iff]
      simp [hb]

theorem IsTrimmed.ne_nil {t : Text} (h : IsTrimmed t) : t ≠ [] := h.1

theorem IsTrimmed.trim_eq {t : Text} (h : IsTrimmed t) : trim t = t := h.2

theorem IsTrimmed.append {a b : Text} (ha : IsTrimmed a) (m : Text) (hb : IsTrimmed b) :
    IsTrimmed (a ++ (m ++ b)) := by
  obtain ⟨ha₀, ha₁, -⟩ := isTrimmed_iff.mp ha
  obtain ⟨hb₀, -, hb₂⟩ := isTrimmed_iff.mp hb
  refine isTrimmed_iff.mpr ⟨by simp [ha₀], ?_, ?_⟩
  · rwa [List.head?_append_of_ne_nil a ha₀]
  · rwa [List.getLast?_append_of_ne_nil a (by simp [hb₀]), List.getLast?_append_of_ne_nil m hb₀]

theorem isTrimmed_of_forall_not_blank {t : Text} (hne : t ≠ []) (h : ∀ c ∈ t, isBlank c = false) :
    IsTrimmed t :=
  isTrimmed_iff.mpr ⟨hne, fun c hc => h c (List.mem_of_mem_head? hc),
    fun c hc => h c (List.mem_of_mem_getLast? hc)⟩

theorem trim_surrounded {t b₁ b₂ : Text} (ht : IsTrimmed t) (h₁ : ∀ c ∈ b₁, isBlank c = true)
    (h₂ : ∀ c ∈ b₂, isBlank c = true) : trim (b₁ ++ (t ++ b₂)) = t := by
  obtain ⟨hne, hhead, hlast⟩ := isTrimmed_iff.mp ht
  have start : trimStart (b₁ ++ (t ++ b₂)) = t ++ b₂ := by
    rw [trimStart, List.dropWhile_append_of_pos h₁]
    cases t with
    | nil => exact absurd rfl hne
    | cons c cs => exact trimStart_cons_of_not_blank _ (hhead c rfl)
  rw [trim, start, trimEnd, dropEndWhile_append_of_all t h₂]
  exact dropEndWhile_eq_self_iff.mpr hlast

end SchemaDrift.Text

namespace SchemaDrift.Clause

/-- Whether the text can be the body of a clause: trimmed, and without a semicolon at its end. -/
def IsBody (t : Text) : Prop := Text.IsTrimmed t ∧ t.getLast? ≠ some ';'

instance (t : Text) : Decidable (IsBody t) :=
  inferInstanceAs (Decidable (Text.IsTrimmed t ∧ t.getLast? ≠ some ';'))

theorem IsBody.append {a b : Text} (ha : IsBody a) (m : Text) (hb : IsBody b) :
    IsBody (a ++ (m ++ b)) := by
  refine ⟨ha.1.append m hb.1, ?_⟩
  have hne := hb.1.ne_nil
  rw [List.getLast?_append_of_ne_nil a (by simp [hne]), List.getLast?_append_of_ne_nil m hne]
  exact hb.2

/-- The body of a clause comes back from between any blanks. -/
theorem clean_surrounded {t b₁ b₂ : Text} (ht : IsBody t) (h₁ : ∀ c ∈ b₁, Text.isBlank c = true)
    (h₂ : ∀ c ∈ b₂, Text.isBlank c = true) : clean (b₁ ++ (t ++ b₂)) = t := by
  have unended : Text.dropEndWhile (· == ';') t = t := by
    apply Text.dropEndWhile_eq_self_iff.mpr
    intro c hc
    have : c ≠ ';' := fun h => ht.2 (h ▸ hc)
    simpa using this
  rw [clean, Text.trim_surrounded ht.1 h₁ h₂, unended, Text.trimEnd]
  exact Text.dropEndWhile_eq_self_iff.mpr (Text.isTrimmed_iff.mp ht.1).2.2

end SchemaDrift.Clause
