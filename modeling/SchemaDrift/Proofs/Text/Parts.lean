import Mathlib.Data.List.Basic
import SchemaDrift.Text.Blank

namespace SchemaDrift.Text

/-!
# Texts in front of parts

A scan that goes past a text without a separator puts this text in front of the first part of what
follows.
-/

-- Characters of a text are tried one by one. Without this a search through all characters is found.
instance (priority := high) decidableForallMem (t : Text) (p : Char → Prop) [DecidablePred p] :
    Decidable (∀ c ∈ t, p c) := List.decidableBAll p t

instance (priority := high) decidableForallMemOption (o : Option Char) (p : Char → Prop)
    [DecidablePred p] : Decidable (∀ c ∈ o, p c) := Option.decidableForallMem o

/-- Puts a text in front of the first part. -/
def prepend (t : Text) : List Text → List Text
  | [] => [t]
  | part :: rest => (t ++ part) :: rest

@[simp] theorem prepend_cons (t part : Text) (rest : List Text) :
    prepend t (part :: rest) = (t ++ part) :: rest := rfl

theorem prepend_nil {parts : List Text} (h : parts ≠ []) : prepend [] parts = parts := by
  cases parts with
  | nil => exact absurd rfl h
  | cons part rest => rfl

theorem consHead_prepend (c : Char) (t : Text) (parts : List Text) :
    consHead c (prepend t parts) = prepend (c :: t) parts := by cases parts <;> rfl

theorem splitOn_append {sep : Char} {t : Text} (h : sep ∉ t) (rest : Text) :
    splitOn sep (t ++ rest) = prepend t (splitOn sep rest) := by
  induction t with
  | nil => rw [prepend_nil (splitOn_ne_nil sep rest), List.nil_append]
  | cons c cs ih =>
    obtain ⟨hc, hcs⟩ := not_or.mp fun hm => h (List.mem_cons.mpr hm)
    rw [List.cons_append, splitOn, if_neg (Ne.symm hc), ih hcs, consHead_prepend]

/-- The parts on both sides of a separator are split apart from each other. -/
theorem splitOn_append_cons (sep : Char) (a b : Text) :
    splitOn sep (a ++ sep :: b) = splitOn sep a ++ splitOn sep b := by
  induction a with
  | nil => simp [splitOn]
  | cons c a ih =>
    rw [List.cons_append, splitOn, splitOn, ih]
    split
    · rfl
    · obtain ⟨p, ps, hp⟩ := List.exists_cons_of_ne_nil (splitOn_ne_nil sep a)
      rw [hp]
      rfl

theorem splitOn_of_not_mem {sep : Char} {t : Text} (h : sep ∉ t) : splitOn sep t = [t] := by
  have split := splitOn_append h []
  rw [List.append_nil] at split
  rw [split, splitOn, prepend_cons, List.append_nil]

theorem join_cons_cons (sep a b : Text) (rest : List Text) :
    join sep (a :: b :: rest) = a ++ (sep ++ join sep (b :: rest)) := by
  simp [join, List.intercalate]

@[simp] theorem join_singleton (sep a : Text) : join sep [a] = a := by
  simp [join, List.intercalate]

theorem join_append (sep : Text) {as bs : List Text} (ha : as ≠ []) (hb : bs ≠ []) :
    join sep (as ++ bs) = join sep as ++ (sep ++ join sep bs) := by
  induction as with
  | nil => exact absurd rfl ha
  | cons a as ih =>
    cases as with
    | nil =>
      cases bs with
      | nil => exact absurd rfl hb
      | cons b bs => simp [join_cons_cons]
    | cons a' as =>
      have step := ih (by simp)
      rw [List.cons_append] at step
      rw [List.cons_append, List.cons_append, join_cons_cons, step, join_cons_cons]
      simp

theorem mem_join {c : Char} {sep : Text} {parts : List Text} (h : c ∈ join sep parts) :
    c ∈ sep ∨ ∃ p ∈ parts, c ∈ p := by
  induction parts with
  | nil => cases h
  | cons p parts ih =>
    cases parts with
    | nil => exact .inr ⟨p, List.mem_cons_self, by simpa using h⟩
    | cons q parts =>
      rw [join_cons_cons, List.mem_append, List.mem_append] at h
      rcases h with h | h | h
      · exact .inr ⟨p, List.mem_cons_self, h⟩
      · exact .inl h
      · rcases ih h with h | ⟨r, hr, h⟩
        · exact .inl h
        · exact .inr ⟨r, List.mem_cons_of_mem p hr, h⟩

/-- Joining joined texts joins them all, if there is no empty group. -/
theorem join_map_join (sep : Text) (groups : List (List Text)) (h : ∀ g ∈ groups, g ≠ []) :
    join sep (groups.map (join sep)) = join sep groups.flatten := by
  induction groups with
  | nil => rfl
  | cons g groups ih =>
    have rest := ih fun g' hg' => h g' (List.mem_cons_of_mem g hg')
    cases groups with
    | nil => simp
    | cons g' groups =>
      have hne : (g' :: groups).flatten ≠ [] := by
        have := h g' (by simp)
        simp [this]
      rw [List.map_cons] at rest
      rw [List.flatten_cons, join_append sep (h g (by simp)) hne, ← rest, List.map_cons,
        List.map_cons, join_cons_cons]

end SchemaDrift.Text
