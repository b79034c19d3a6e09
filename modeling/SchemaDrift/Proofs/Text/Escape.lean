import SchemaDrift.Text.Quoted

namespace SchemaDrift.Text

/-!
# Escapes

A character is written as it is or as a backslash with what names it. What names it has neither dots
nor brackets, and a quoted text stands on one line.
-/

theorem exists_digit_of_mem {c : Char} {n : Nat} (h : c ∈ Nat.toDigits 16 n) :
    ∃ d < 16, c = Nat.digitChar d := by
  induction n using Nat.strongRecOn with
  | ind n ih =>
    by_cases hn : n < 16
    · rw [Nat.toDigits_of_lt_base hn] at h
      exact ⟨n, hn, List.mem_singleton.mp h⟩
    · have hlast : n % 16 < 16 := Nat.mod_lt n (by decide)
      have hsplit := Nat.toDigits_append_toDigits (b := 16) (n := n / 16) (d := n % 16)
        (by decide) (by omega) hlast
      rw [Nat.toDigits_of_lt_base hlast, Nat.div_add_mod] at hsplit
      rw [← hsplit] at h
      rcases List.mem_append.mp h with h | h
      · exact ih (n / 16) (by omega) h
      · exact ⟨n % 16, hlast, List.mem_singleton.mp h⟩

theorem escape_cases (c : Char) : (escape c = [c] ∧ c ≠ '"' ∧ c ≠ '\\') ∨
    ∃ d tail, escape c = '\\' :: d :: tail ∧ d ≠ '\n' ∧ (∀ x ∈ d :: tail, x ≠ '.' ∧ x ≠ '[') ∧
      ∀ x ∈ tail, x ≠ '"' ∧ x ≠ '\\' := by
  have number : ∀ x ∈ (("\x7b" : Text) ++ Nat.toDigits 16 c.toNat ++ "\x7d"),
      (x ≠ '.' ∧ x ≠ '[') ∧ x ≠ '"' ∧ x ≠ '\\' := by
    have digit : ∀ n < 16, (Nat.digitChar n ≠ '.' ∧ Nat.digitChar n ≠ '[') ∧
        Nat.digitChar n ≠ '"' ∧ Nat.digitChar n ≠ '\\' := by decide
    intro x hx
    simp only [List.mem_append] at hx
    rcases hx with (hx | hx) | hx
    · revert x
      decide
    · obtain ⟨n, hn, rfl⟩ := exists_digit_of_mem hx
      exact digit n hn
    · revert x
      decide
  have short (d : Char) (hd : d ≠ '\n' ∧ d ≠ '.' ∧ d ≠ '[') :
      ∃ d' tail, (['\\', d] : Text) = '\\' :: d' :: tail ∧ d' ≠ '\n' ∧
        (∀ x ∈ d' :: tail, x ≠ '.' ∧ x ≠ '[') ∧ ∀ x ∈ tail, x ≠ '"' ∧ x ≠ '\\' :=
    ⟨d, [], rfl, hd.1, by simpa using hd.2, by simp⟩
  unfold escape
  split
  · exact .inr (short '0' (by decide))
  split
  · exact .inr (short 't' (by decide))
  split
  · exact .inr (short 'n' (by decide))
  split
  · exact .inr (short 'r' (by decide))
  split
  · exact .inr (short '"' (by decide))
  split
  · exact .inr (short '\\' (by decide))
  rename_i hquote hback
  split
  · refine .inr ⟨'u', "\x7b" ++ Nat.toDigits 16 c.toNat ++ "\x7d", by simp [numbered], by decide,
      fun x hx => ?_, fun x hx => (number x hx).2⟩
    rcases List.mem_cons.mp hx with rfl | hx
    · decide
    · exact (number x hx).1
  · exact .inl ⟨rfl, hquote, hback⟩

theorem ne_of_mem_escape {c x : Char} (hc : c ≠ '.' ∧ c ≠ '[') (hx : x ∈ escape c) :
    x ≠ '.' ∧ x ≠ '[' := by
  rcases escape_cases c with ⟨he, -⟩ | ⟨d, tail, he, -, hplain, -⟩
  · rw [he, List.mem_singleton] at hx
    rwa [hx]
  · rw [he] at hx
    rcases List.mem_cons.mp hx with rfl | hx
    · decide
    · exact hplain x hx

theorem newline_not_mem_escape (c : Char) : '\n' ∉ escape c := by
  have digit : ∀ d < 16, '\n' ≠ Nat.digitChar d := by decide
  unfold escape
  split
  · decide
  split
  · decide
  split
  · decide
  split
  · decide
  split
  · decide
  split
  · decide
  rename_i hnewline _ _ _
  split
  · intro h
    simp only [numbered, List.mem_append] at h
    rcases h with (h | h) | h
    · revert h
      decide
    · obtain ⟨d, hd, hn⟩ := exists_digit_of_mem h
      exact digit d hd hn
    · revert h
      decide
  · simpa [eq_comm] using hnewline

theorem newline_not_mem_quote (t : Text) : '\n' ∉ quote t := by
  intro h
  rcases List.mem_append.mp h with h | h
  · rcases List.mem_cons.mp h with h | h
    · cases h
    · obtain ⟨c, -, hc⟩ := List.mem_flatMap.mp h
      exact newline_not_mem_escape c hc
  · revert h
    decide

end SchemaDrift.Text
