import SchemaDrift.Proofs.Text.Trimmed
import SchemaDrift.Text.Caseless
import SchemaDrift.Text.Word

namespace SchemaDrift.Text

/-!
# Texts without the blanks at their end

A cut at a pattern that does not end in a blank is the same without the blanks at the end of a text.
-/

@[simp] theorem trimEnd_nil : trimEnd [] = [] := rfl

theorem dropEndWhile_cons (p : Char → Bool) (c : Char) (cs : Text) : dropEndWhile p (c :: cs) =
    if p c = true ∧ dropEndWhile p cs = [] then [] else c :: dropEndWhile p cs := by
  rw [dropEndWhile]
  cases dropEndWhile p cs with
  | nil => cases p c <;> simp
  | cons d ds => simp

theorem dropEndWhile_cons_cases (p : Char → Bool) (c : Char) (cs : Text) :
    dropEndWhile p (c :: cs) = [] ∨ dropEndWhile p (c :: cs) = c :: dropEndWhile p cs := by
  rw [dropEndWhile_cons]
  split
  · exact .inl rfl
  · exact .inr rfl

theorem dropEndWhile_cons_of_neg {p : Char → Bool} {c : Char} (h : p c = false) (cs : Text) :
    dropEndWhile p (c :: cs) = c :: dropEndWhile p cs := by
  rw [dropEndWhile_cons, if_neg (by simp [h])]

theorem trimEnd_cons (c : Char) (cs : Text) :
    trimEnd (c :: cs) = if isBlank c = true ∧ trimEnd cs = [] then [] else c :: trimEnd cs :=
  dropEndWhile_cons isBlank c cs

theorem trimEnd_cons_cases (c : Char) (cs : Text) :
    trimEnd (c :: cs) = [] ∨ trimEnd (c :: cs) = c :: trimEnd cs :=
  dropEndWhile_cons_cases isBlank c cs

theorem trimEnd_cons_of_not_blank {c : Char} (h : isBlank c = false) (cs : Text) :
    trimEnd (c :: cs) = c :: trimEnd cs := by
  rw [trimEnd_cons, if_neg (by simp [h])]

theorem trimEnd_eq_nil_iff {t : Text} : trimEnd t = [] ↔ ∀ c ∈ t, isBlank c = true := by
  induction t with
  | nil => simp
  | cons c cs ih =>
    rw [trimEnd_cons, List.forall_mem_cons, ← ih]
    split <;> simp_all

@[simp] theorem trimEnd_trimEnd (t : Text) : trimEnd (trimEnd t) = trimEnd t := by
  induction t with
  | nil => rfl
  | cons c cs ih =>
    rw [trimEnd_cons]
    split
    · rfl
    · rename_i h
      rw [trimEnd_cons, ih, if_neg h]

theorem trimEnd_append {a : Text} (hne : a ≠ []) (h : ∀ c ∈ a.getLast?, isBlank c = false)
    (t : Text) : trimEnd (a ++ t) = a ++ trimEnd t := by
  induction a with
  | nil => exact absurd rfl hne
  | cons c cs ih =>
    cases cs with
    | nil => exact trimEnd_cons_of_not_blank (h c rfl) t
    | cons d ds =>
      have rest := ih (List.cons_ne_nil d ds) h
      rw [List.cons_append, trimEnd_cons, rest, if_neg (by simp)]
      rfl

theorem trimEnd_prefix (t : Text) : trimEnd t <+: t := isPrefix_dropEndWhile isBlank t

theorem trimStart_trimEnd (t : Text) : trimStart (trimEnd t) = trimEnd (trimStart t) := by
  induction t with
  | nil => rfl
  | cons c cs ih =>
    cases hc : isBlank c with
    | false =>
      rw [trimEnd_cons_of_not_blank hc, trimStart_cons_of_not_blank _ hc,
        trimStart_cons_of_not_blank _ hc, trimEnd_cons_of_not_blank hc]
    | true =>
      rw [trimStart_cons_of_blank _ hc, ← ih, trimEnd_cons]
      split
      · rename_i h
        rw [h.2]
      · exact trimStart_cons_of_blank _ hc

@[simp] theorem trimStart_trimStart (t : Text) : trimStart (trimStart t) = trimStart t :=
  List.dropWhile_idempotent isBlank t

theorem trim_trimEnd (t : Text) : trim (trimEnd t) = trim t := by
  rw [trim, trimStart_trimEnd, trimEnd_trimEnd, trim]

theorem trimStart_trim (t : Text) : trimStart (trim t) = trim t := by
  rw [trim, trimStart_trimEnd, trimStart_trimStart]

theorem trim_trim (t : Text) : trim (trim t) = trim t := by
  rw [trim, trimStart_trim, trim, trimEnd_trimEnd]

/-- A text starts as it does without the blanks at its end, or it starts with a blank. -/
theorem head?_trimEnd (t : Text) : (trimEnd t).head? = t.head? ∨
    trimEnd t = [] ∧ ∃ c cs, t = c :: cs ∧ isBlank c = true := by
  cases t with
  | nil => exact .inl rfl
  | cons c cs =>
    rw [trimEnd_cons]
    split
    · rename_i h
      exact .inr ⟨rfl, c, cs, rfl, h.1⟩
    · exact .inl rfl

theorem stripStart_trimEnd {k : Text} (hne : k ≠ []) (h : ∀ c ∈ k.getLast?, isBlank c = false)
    (t : Text) : stripStart k (trimEnd t) = (stripStart k t).map trimEnd := by
  cases hs : stripStart k t with
  | some r =>
    rw [stripStart_eq_some_iff.mp hs, trimEnd_append hne h, stripStart_append]
    rfl
  | none =>
    rw [Option.map_none, Option.eq_none_iff_forall_ne_some]
    intro r hr
    obtain ⟨s, hts⟩ := trimEnd_prefix t
    rw [stripStart_eq_some_iff.mp hr, List.append_assoc] at hts
    rw [← hts, stripStart_append] at hs
    cases hs

theorem cutAt_trimEnd {k : Text} (hne : k ≠ []) (h : ∀ c ∈ k.getLast?, isBlank c = false)
    (t : Text) : cutAt k (trimEnd t) = (cutAt k t).map (Prod.map id trimEnd) := by
  have blank (t : Text) (ht : trimEnd t = []) : cutAt k t = none := by
    rw [Option.eq_none_iff_forall_ne_some]
    rintro ⟨a, b⟩ hcut
    have last := trimEnd_eq_nil_iff.mp ht (k.getLast hne) (by simp [append_of_cutAt hcut])
    rw [h _ (List.getLast?_eq_getLast_of_ne_nil hne)] at last
    cases last
  induction t with
  | nil => cases k with
    | nil => exact absurd rfl hne
    | cons c cs => rfl
  | cons c cs ih =>
    rcases trimEnd_cons_cases c cs with h' | h'
    · rw [h', blank _ h', blank [] rfl]
      rfl
    · have here := stripStart_trimEnd hne h (c :: cs)
      rw [h'] at here ⊢
      rw [cutAt, cutAt, here]
      cases stripStart k (c :: cs) with
      | some rest => rfl
      | none =>
        simp only [Option.map_none, ih, Option.map_map]
        rfl

theorem skipBlanks?_trimEnd (t : Text) :
    skipBlanks? (trimEnd t) = (skipBlanks? t).map trimEnd ∨
      skipBlanks? t = some [] ∧ skipBlanks? (trimEnd t) = none := by
  cases t with
  | nil => exact .inl rfl
  | cons c cs =>
    rw [trimEnd_cons]
    split
    · rename_i h
      refine .inr ⟨?_, rfl⟩
      have blank : trimStart cs = [] := List.dropWhile_eq_nil_iff.mpr (trimEnd_eq_nil_iff.mp h.2)
      rw [skipBlanks?, if_pos h.1, blank]
    · left
      cases hc : isBlank c with
      | false => simp [skipBlanks?, hc]
      | true => simp [skipBlanks?, hc, trimStart_trimEnd]

/-- The code points of the blanks. -/
def blankCodes : List Nat :=
  [9, 10, 11, 12, 13, 0x20, 0x85, 0xA0, 0x1680, 0x2000, 0x2001, 0x2002, 0x2003, 0x2004, 0x2005,
    0x2006, 0x2007, 0x2008, 0x2009, 0x200A, 0x2028, 0x2029, 0x202F, 0x205F, 0x3000]

theorem mem_blankCodes_of_isBlank {c : Char} (h : isBlank c = true) : c.toNat ∈ blankCodes := by
  simp only [isBlank, Bool.or_eq_true, Bool.and_eq_true, decide_eq_true_eq, beq_iff_eq] at h
  simp only [blankCodes, List.mem_cons, List.not_mem_nil, or_false]
  omega

/-- A blank is no word character. -/
theorem isWord_of_isBlank {c : Char} (h : isBlank c = true) : isWord c = false := by
  have known : ∀ n ∈ blankCodes, word.has n = false := by decide +kernel
  exact known _ (mem_blankCodes_of_isBlank h)

theorem atWordEnd_trimEnd (t : Text) : atWordEnd (trimEnd t) = atWordEnd t := by
  rcases head?_trimEnd t with h | ⟨h, c, cs, rfl, hc⟩
  · rw [atWordEnd, h, atWordEnd]
  · rw [h]
    simp [atWordEnd, isWord_of_isBlank hc]

/-! ## Classes of characters -/

section Class

variable {p : Char → Bool} (hp : ∀ c, p c = true → isBlank c = false)

include hp

theorem takeWhile_trimEnd (t : Text) : (trimEnd t).takeWhile p = t.takeWhile p := by
  induction t with
  | nil => rfl
  | cons c cs ih =>
    cases hc : p c with
    | true => rw [trimEnd_cons_of_not_blank (hp c hc), List.takeWhile_cons_of_pos hc, ih,
        List.takeWhile_cons_of_pos hc]
    | false =>
      rw [trimEnd_cons]
      split <;> simp [hc]

theorem dropWhile_trimEnd (t : Text) : (trimEnd t).dropWhile p = trimEnd (t.dropWhile p) := by
  induction t with
  | nil => rfl
  | cons c cs ih =>
    cases hc : p c with
    | true => rw [trimEnd_cons_of_not_blank (hp c hc), List.dropWhile_cons_of_pos hc, ih,
        List.dropWhile_cons_of_pos hc]
    | false =>
      rw [List.dropWhile_cons_of_neg (by simp [hc]), trimEnd_cons]
      split
      · rfl
      · exact List.dropWhile_cons_of_neg (by simp [hc])

end Class

end SchemaDrift.Text
