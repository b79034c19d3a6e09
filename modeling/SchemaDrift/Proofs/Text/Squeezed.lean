import SchemaDrift.Proofs.Statement.Surroundings

namespace SchemaDrift.Text

/-!
# Texts up to runs of blanks

A squeezed text has one space for each run of blanks. Cutting at something that holds no blank and
squeezing can be done in either order.
-/

/-- The text with one space in the place of each run of blanks. -/
def squeeze : Text → Text
  | [] => []
  | c :: cs => if isBlank c then ' ' :: trimStart (squeeze cs) else c :: squeeze cs

/-- The characters that are not blank. -/
def solid (t : Text) : Text := t.filter (!isBlank ·)

@[simp] theorem squeeze_nil : squeeze [] = [] := rfl

theorem squeeze_cons_of_blank {c : Char} (h : isBlank c = true) (cs : Text) :
    squeeze (c :: cs) = ' ' :: trimStart (squeeze cs) := by rw [squeeze, if_pos h]

theorem squeeze_cons_of_not_blank {c : Char} (h : isBlank c = false) (cs : Text) :
    squeeze (c :: cs) = c :: squeeze cs := by rw [squeeze, if_neg (by simp [h])]

@[simp] theorem squeeze_eq_nil_iff {t : Text} : squeeze t = [] ↔ t = [] := by
  cases t with
  | nil => simp
  | cons c cs =>
    rw [squeeze]
    split <;> simp

@[simp] theorem isEmpty_squeeze (t : Text) : (squeeze t).isEmpty = t.isEmpty := by
  rw [Bool.eq_iff_iff, List.isEmpty_iff, List.isEmpty_iff, squeeze_eq_nil_iff]

theorem squeeze_of_forall {t : Text} (h : ∀ c ∈ t, isBlank c = false) : squeeze t = t := by
  induction t with
  | nil => rfl
  | cons c cs ih =>
    rw [List.forall_mem_cons] at h
    rw [squeeze_cons_of_not_blank h.1, ih h.2]

theorem space_mem_squeeze {t : Text} (h : ∃ c ∈ t, isBlank c = true) : ' ' ∈ squeeze t := by
  obtain ⟨c, hc, hb⟩ := h
  induction t with
  | nil => cases hc
  | cons d ds ih =>
    cases hd : isBlank d with
    | true =>
      rw [squeeze_cons_of_blank hd]
      exact List.mem_cons_self
    | false =>
      rw [squeeze_cons_of_not_blank hd]
      rcases List.mem_cons.mp hc with rfl | hc
      · rw [hb] at hd
        cases hd
      · exact List.mem_cons_of_mem d (ih hc)

/-- A squeezed text starts as the text does, or with a space in the place of a blank. -/
theorem head?_squeeze (t : Text) :
    (squeeze t).head? = t.head?.map fun c => if isBlank c then ' ' else c := by
  cases t with
  | nil => rfl
  | cons c cs =>
    rw [squeeze]
    split <;> simp_all

theorem trimStart_squeeze (t : Text) : trimStart (squeeze t) = squeeze (trimStart t) := by
  induction t with
  | nil => rfl
  | cons c cs ih =>
    cases hc : isBlank c with
    | true =>
      rw [squeeze_cons_of_blank hc, trimStart_cons_of_blank _ isBlank_space, trimStart_trimStart,
        ih, trimStart_cons_of_blank _ hc]
    | false =>
      rw [squeeze_cons_of_not_blank hc, trimStart_cons_of_not_blank _ hc,
        trimStart_cons_of_not_blank _ hc, squeeze_cons_of_not_blank hc]

theorem trim_eq_nil_iff {t : Text} : trim t = [] ↔ ∀ c ∈ t, isBlank c = true := by
  rw [trim, trimEnd_eq_nil_iff]
  constructor
  · intro h c hc
    rw [← List.takeWhile_append_dropWhile (p := isBlank) (l := t), List.mem_append] at hc
    exact hc.elim List.mem_takeWhile_imp (h c)
  · exact fun h c hc => h c ((List.dropWhile_sublist isBlank).subset hc)

theorem trimEnd_squeeze (t : Text) : trimEnd (squeeze t) = squeeze (trimEnd t) := by
  induction t with
  | nil => rfl
  | cons c cs ih =>
    cases hc : isBlank c with
    | true =>
      rw [squeeze_cons_of_blank hc, trimEnd_cons, trimEnd_cons, ← trimStart_trimEnd, ih,
        trimStart_squeeze]
      have same : trimStart (trimEnd cs) = [] ↔ trimEnd cs = [] := by
        rw [trimStart_trimEnd, ← trim, trim_eq_nil_iff, trimEnd_eq_nil_iff]
      simp only [squeeze_eq_nil_iff, same, isBlank_space, hc, true_and]
      split
      · rfl
      · rw [squeeze_cons_of_blank hc, trimStart_squeeze]
    | false =>
      rw [squeeze_cons_of_not_blank hc, trimEnd_cons_of_not_blank hc, ih,
        trimEnd_cons_of_not_blank hc, squeeze_cons_of_not_blank hc]

theorem trim_squeeze (t : Text) : trim (squeeze t) = squeeze (trim t) := by
  rw [trim, trimStart_squeeze, trimEnd_squeeze, trim]

theorem solid_cons_of_blank {c : Char} (h : isBlank c = true) (cs : Text) :
    solid (c :: cs) = solid cs := List.filter_cons_of_neg (by simp [h])

theorem solid_eq_nil_iff {t : Text} : solid t = [] ↔ ∀ c ∈ t, isBlank c = true := by
  simp [solid]

@[simp] theorem solid_trim (t : Text) : solid (trim t) = solid t := by
  have start (t : Text) : solid (trimStart t) = solid t := by
    induction t with
    | nil => rfl
    | cons c cs ih =>
      cases hc : isBlank c with
      | true => rw [trimStart_cons_of_blank _ hc, ih, solid_cons_of_blank hc]
      | false => rw [trimStart_cons_of_not_blank _ hc]
  have finish (t : Text) : solid (trimEnd t) = solid t := by
    induction t with
    | nil => rfl
    | cons c cs ih =>
      rcases trimEnd_cons_cases c cs with h | h
      · rw [h]
        exact (solid_eq_nil_iff.mpr (trimEnd_eq_nil_iff.mp h)).symm
      · rw [h]
        simp only [solid] at ih ⊢
        rw [List.filter_cons, List.filter_cons, ih]
  rw [trim, finish, start]

/-- Squeezing goes through a text in front of something that is not blank. -/
theorem squeeze_append (a : Text) {b : Text} (h : ∀ c ∈ b.head?, isBlank c = false) :
    squeeze (a ++ b) = squeeze a ++ squeeze b := by
  have keep : trimStart (squeeze b) = squeeze b := by
    rw [trimStart_squeeze]
    cases b with
    | nil => rfl
    | cons c cs => rw [trimStart_cons_of_not_blank cs (h c rfl)]
  have start (u : Text) : trimStart (u ++ squeeze b) = trimStart u ++ squeeze b := by
    induction u with
    | nil => exact keep
    | cons c cs ih =>
      rw [List.cons_append]
      cases hc : isBlank c with
      | true => rw [trimStart_cons_of_blank _ hc, trimStart_cons_of_blank _ hc, ih]
      | false =>
        rw [trimStart_cons_of_not_blank _ hc, trimStart_cons_of_not_blank _ hc, List.cons_append]
  induction a with
  | nil => rfl
  | cons c cs ih =>
    rw [List.cons_append, squeeze, squeeze, ih, start]
    split <;> rfl

/-! ## Patterns -/

section Strip

variable {strip : Text → Text → Option Text} {f : Char → Char}

/-- A pattern without blanks is read in front of a squeezed text if it is in front of the text. The
characters may be changed by `f` before they are compared. -/
theorem strip_squeeze (nil : ∀ t, strip [] t = some t) (short : ∀ d ds, strip (d :: ds) [] = none)
    (step : ∀ d ds c cs, strip (d :: ds) (c :: cs) = if d = f c then strip ds cs else none)
    (hf : ∀ b, isBlank b = true → f b = b) {k : Text} (hk : ∀ c ∈ k, isBlank c = false) (t : Text) :
    strip k (squeeze t) = (strip k t).map squeeze := by
  induction k generalizing t with
  | nil => rw [nil, nil, Option.map_some]
  | cons d ds ih =>
    obtain ⟨hd, hds⟩ := List.forall_mem_cons.mp hk
    cases t with
    | nil => rw [squeeze_nil, short, Option.map_none]
    | cons c cs =>
      cases hc : isBlank c with
      | true =>
        have other {b : Char} (hb : isBlank b = true) : d ≠ f b := by
          rw [hf b hb]
          rintro rfl
          rw [hd] at hb
          cases hb
        rw [squeeze_cons_of_blank hc, step, if_neg (other isBlank_space), step, if_neg (other hc),
          Option.map_none]
      | false =>
        rw [squeeze_cons_of_not_blank hc, step, step, ih hds]
        split <;> rfl

theorem stripStart_squeeze {k : Text} (hk : ∀ c ∈ k, isBlank c = false) (t : Text) :
    stripStart k (squeeze t) = (stripStart k t).map squeeze :=
  strip_squeeze (f := id) (fun _ => rfl) (fun _ _ => rfl) (fun _ _ _ _ => rfl) (fun _ _ => rfl) hk t

theorem stripKeyword_squeeze {k : Text} (hk : ∀ c ∈ k, isNameChar c = true) (t : Text) :
    stripKeyword k (squeeze t) = (stripKeyword k t).map squeeze :=
  strip_squeeze (fun _ => rfl) (fun _ _ => rfl) (fun _ _ _ _ => rfl) (fun _ => fold_of_isBlank)
    (fun c hc => isBlank_of_isNameChar (hk c hc)) t

end Strip

theorem skipBlanks?_squeeze (t : Text) :
    skipBlanks? (squeeze t) = (skipBlanks? t).map squeeze := by
  cases t with
  | nil => rfl
  | cons c cs =>
    cases hc : isBlank c with
    | true =>
      rw [squeeze_cons_of_blank hc, skipBlanks?, if_pos isBlank_space, trimStart_trimStart,
        trimStart_squeeze, skipBlanks?, if_pos hc]
      rfl
    | false => simp [squeeze_cons_of_not_blank hc, skipBlanks?, hc]

theorem atWordEnd_squeeze (t : Text) : atWordEnd (squeeze t) = atWordEnd t := by
  rw [atWordEnd, head?_squeeze, atWordEnd]
  cases t with
  | nil => rfl
  | cons c cs =>
    simp only [List.head?_cons, Option.map_some]
    split
    · rename_i hc
      simp [isWord_of_isBlank hc, isWord_of_isBlank isBlank_space]
    · rfl

/-! ## Classes of characters -/

section Class

variable {p : Char → Bool} (hp : ∀ c, p c = true → isBlank c = false)

include hp

theorem not_of_isBlank {c : Char} (hc : isBlank c = true) : p c = false := by
  cases h : p c with
  | false => rfl
  | true =>
    rw [hp c h] at hc
    cases hc

theorem takeWhile_squeeze (t : Text) : (squeeze t).takeWhile p = t.takeWhile p := by
  induction t with
  | nil => rfl
  | cons c cs ih =>
    cases hc : isBlank c with
    | true =>
      rw [squeeze_cons_of_blank hc,
        List.takeWhile_cons_of_neg (by simp [not_of_isBlank hp isBlank_space]),
        List.takeWhile_cons_of_neg (by simp [not_of_isBlank hp hc])]
    | false => rw [squeeze_cons_of_not_blank hc, List.takeWhile_cons, List.takeWhile_cons, ih]

theorem dropWhile_squeeze (t : Text) : (squeeze t).dropWhile p = squeeze (t.dropWhile p) := by
  induction t with
  | nil => rfl
  | cons c cs ih =>
    cases hc : isBlank c with
    | true =>
      rw [List.dropWhile_cons_of_neg (by simp [not_of_isBlank hp hc]), squeeze_cons_of_blank hc,
        List.dropWhile_cons_of_neg (by simp [not_of_isBlank hp isBlank_space])]
    | false =>
      rw [squeeze_cons_of_not_blank hc, List.dropWhile_cons, List.dropWhile_cons, ih]
      split
      · rfl
      · exact (squeeze_cons_of_not_blank hc cs).symm

theorem trimStart_dropEndWhile (t : Text) :
    trimStart (dropEndWhile p t) = dropEndWhile p (trimStart t) := by
  induction t with
  | nil => rfl
  | cons c cs ih =>
    cases hc : isBlank c with
    | true =>
      rw [dropEndWhile_cons_of_neg (not_of_isBlank hp hc), trimStart_cons_of_blank _ hc, ih,
        trimStart_cons_of_blank _ hc]
    | false =>
      rw [trimStart_cons_of_not_blank cs hc]
      rcases dropEndWhile_cons_cases p c cs with h | h
      · rw [h]
        rfl
      · rw [h, trimStart_cons_of_not_blank _ hc]

theorem dropEndWhile_squeeze (t : Text) :
    dropEndWhile p (squeeze t) = squeeze (dropEndWhile p t) := by
  induction t with
  | nil => rfl
  | cons c cs ih =>
    cases hc : isBlank c with
    | true =>
      rw [squeeze_cons_of_blank hc, dropEndWhile_cons_of_neg (not_of_isBlank hp isBlank_space),
        dropEndWhile_cons_of_neg (not_of_isBlank hp hc), squeeze_cons_of_blank hc,
        ← trimStart_dropEndWhile hp, ih]
    | false =>
      rw [squeeze_cons_of_not_blank hc, dropEndWhile_cons, dropEndWhile_cons, ih]
      simp only [squeeze_eq_nil_iff]
      split
      · rfl
      · exact (squeeze_cons_of_not_blank hc _).symm

end Class

theorem takeName?_squeeze (t : Text) :
    takeName? (squeeze t) = (takeName? t).map (Prod.map id squeeze) := by
  have solid (c : Char) (h : isNameChar c = true) := isBlank_of_isNameChar h
  rw [takeName?_eq, takeName?_eq, takeWhile_squeeze solid, dropWhile_squeeze solid]
  split <;> rfl

/-! ## Parts -/

theorem map_squeeze_consHead_of_blank {c : Char} (hc : isBlank c = true) (parts : List Text) :
    (consHead c parts).map squeeze =
      consHead ' ' ((parts.map squeeze).modifyHead trimStart) := by
  cases parts with
  | nil => simp [consHead, squeeze_cons_of_blank hc, trimStart]
  | cons p ps => simp [consHead, squeeze_cons_of_blank hc]

theorem map_squeeze_consHead_of_not_blank {c : Char} (hc : isBlank c = false)
    (parts : List Text) : (consHead c parts).map squeeze = consHead c (parts.map squeeze) := by
  cases parts <;> simp [consHead, squeeze_cons_of_not_blank hc]

theorem modifyHead_consHead_of_blank {c : Char} (hc : isBlank c = true) {parts : List Text}
    (hne : parts ≠ []) : (consHead c parts).modifyHead trimStart = parts.modifyHead trimStart := by
  cases parts with
  | nil => exact absurd rfl hne
  | cons p ps => simp [consHead, trimStart_cons_of_blank p hc]

theorem modifyHead_consHead_of_not_blank {c : Char} (hc : isBlank c = false)
    (parts : List Text) : (consHead c parts).modifyHead trimStart = consHead c parts := by
  cases parts <;> simp [consHead, trimStart_cons_of_not_blank _ hc]

section Split

variable {sep : Char} (hsep : isBlank sep = false)

include hsep

theorem splitOn_cons_of_blank {c : Char} (hc : isBlank c = true) (cs : Text) :
    splitOn sep (c :: cs) = consHead c (splitOn sep cs) := by
  have other : c ≠ sep := by
    rintro rfl
    rw [hc] at hsep
    cases hsep
  rw [splitOn, if_neg other]

theorem splitOn_trimStart (t : Text) :
    splitOn sep (trimStart t) = (splitOn sep t).modifyHead trimStart := by
  induction t with
  | nil => rfl
  | cons c cs ih =>
    cases hc : isBlank c with
    | true =>
      rw [trimStart_cons_of_blank _ hc, ih, splitOn_cons_of_blank hsep hc,
        modifyHead_consHead_of_blank hc (splitOn_ne_nil sep cs)]
    | false =>
      rw [trimStart_cons_of_not_blank _ hc, splitOn]
      split
      · rfl
      · rw [modifyHead_consHead_of_not_blank hc]

theorem splitOn_squeeze (t : Text) : splitOn sep (squeeze t) = (splitOn sep t).map squeeze := by
  induction t with
  | nil => rfl
  | cons c cs ih =>
    cases hc : isBlank c with
    | true =>
      rw [squeeze_cons_of_blank hc, splitOn_cons_of_blank hsep isBlank_space,
        splitOn_trimStart hsep, ih, splitOn_cons_of_blank hsep hc,
        map_squeeze_consHead_of_blank hc]
    | false =>
      rw [squeeze_cons_of_not_blank hc, splitOn, splitOn]
      split
      · rw [List.map_cons, ih]
        rfl
      · rw [map_squeeze_consHead_of_not_blank hc, ih]

end Split

end SchemaDrift.Text
