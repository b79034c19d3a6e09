namespace SchemaDrift

/-!
# Texts

Statements, type expressions and source files are cut, searched and joined one character at a
time, so a text is the list of its characters and every operation is a recursion on that list.
-/

/-- The characters of a text, in order. -/
abbrev Text := List Char

instance : Coe String Text := ⟨String.toList⟩

namespace Text

/-- Puts a character in front of the first part. -/
def consHead (c : Char) : List Text → List Text
  | [] => [[c]]
  | part :: rest => (c :: part) :: rest

/-- The parts between the separators; a text without a separator is one part. -/
def splitOn (sep : Char) : Text → List Text
  | [] => [[]]
  | c :: cs => if c = sep then [] :: splitOn sep cs else consHead c (splitOn sep cs)

/-- The lines, each with the newline that ends it. -/
def lines : Text → List Text
  | [] => []
  | c :: cs => if c = '\n' then ['\n'] :: lines cs else consHead c (lines cs)

/-- The texts with the separator between neighbours. -/
def join (sep : Text) (parts : List Text) : Text := List.intercalate sep parts

/-- Removes the characters of a class from the end. -/
def dropEndWhile (p : Char → Bool) : Text → Text
  | [] => []
  | c :: cs =>
    match dropEndWhile p cs with
    | [] => if p c then [] else [c]
    | d :: ds => c :: d :: ds

/-- What follows the pattern, if the text starts with it. -/
def stripStart : Text → Text → Option Text
  | [], t => some t
  | _ :: _, [] => none
  | p :: ps, c :: cs => if p = c then stripStart ps cs else none

/-- What stands in front of the pattern, if the text ends with it. -/
def stripEnd (pattern t : Text) : Option Text :=
  (stripStart pattern.reverse t.reverse).map List.reverse

/-- Cuts at the first occurrence of a pattern: what stands before it and what follows it. -/
def cutAt (pattern : Text) : Text → Option (Text × Text)
  | [] => if pattern.isEmpty then some ([], []) else none
  | c :: cs =>
    match stripStart pattern (c :: cs) with
    | some rest => some ([], rest)
    | none => (cutAt pattern cs).map fun cut => (c :: cut.1, cut.2)

/-- The part before the first occurrence of a pattern, or the whole text. -/
def before (pattern text : Text) : Text :=
  match cutAt pattern text with
  | some cut => cut.1
  | none => text

/-- Equality up to the case of the letters A to Z. -/
def sameLetters (a b : Text) : Bool := a.map Char.toLower == b.map Char.toLower

def lowercase (t : Text) : Text := t.map Char.toLower

def uppercase (t : Text) : Text := t.map Char.toUpper

def insertAt (t : Text) (place : Nat) (s : Text) : Text := t.take place ++ (s ++ t.drop place)

/-- Exchanges the characters from one place up to another for a text. -/
def replaceSpan (t : Text) (start stop : Nat) (s : Text) : Text :=
  t.take start ++ (s ++ t.drop stop)

def slice (t : Text) (start stop : Nat) : Text := (t.take stop).drop start

theorem insertAt_append (a b s : Text) : insertAt (a ++ b) a.length s = a ++ (s ++ b) := by
  rw [insertAt, List.take_left, List.drop_left]

theorem replaceSpan_append (a b c s : Text) :
    replaceSpan (a ++ (b ++ c)) a.length (a ++ b).length s = a ++ (s ++ c) := by
  rw [replaceSpan, List.take_left, ← List.append_assoc a b, List.drop_left]

theorem slice_append (a b c : Text) : slice (a ++ (b ++ c)) a.length (a ++ b).length = b := by
  rw [slice, ← List.append_assoc, List.take_left, List.drop_left]

theorem slice_length_add (a b c : Text) :
    slice (a ++ (b ++ c)) a.length (a.length + b.length) = b := by
  rw [← List.length_append, slice_append]

theorem flatten_consHead (c : Char) (parts : List Text) :
    (consHead c parts).flatten = c :: parts.flatten := by
  cases parts <;> simp [consHead]

theorem flatten_lines (t : Text) : (lines t).flatten = t := by
  induction t with
  | nil => rfl
  | cons c cs ih => by_cases h : c = '\n' <;> simp [lines, h, ih, flatten_consHead]

theorem splitOn_ne_nil (sep : Char) (t : Text) : splitOn sep t ≠ [] := by
  cases t with
  | nil => simp [splitOn]
  | cons c cs =>
    by_cases h : c = sep
    · simp [splitOn, h]
    · cases hs : splitOn sep cs <;> simp [splitOn, h, hs, consHead]

theorem join_consHead (sep : Text) (c : Char) (parts : List Text) (h : parts ≠ []) :
    join sep (consHead c parts) = c :: join sep parts := by
  cases parts with
  | nil => exact absurd rfl h
  | cons p ps => cases ps <;> simp [join, consHead, List.intercalate]

theorem isPrefix_dropEndWhile (p : Char → Bool) (t : Text) : dropEndWhile p t <+: t := by
  induction t with
  | nil => exact List.prefix_refl []
  | cons c cs ih =>
    cases h : dropEndWhile p cs with
    | nil => by_cases hp : p c <;> simp [dropEndWhile, h, hp]
    | cons d ds =>
      rw [h] at ih
      simpa [dropEndWhile, h] using ih

theorem stripStart_eq_some_iff {p t r : Text} : stripStart p t = some r ↔ t = p ++ r := by
  induction p generalizing t with
  | nil => simp [stripStart]
  | cons c cs ih =>
    cases t with
    | nil => simp [stripStart]
    | cons d ds =>
      by_cases h : c = d
      · simp [stripStart, h, ih]
      · simp [stripStart, h, Ne.symm h]

@[simp] theorem stripStart_append (p r : Text) : stripStart p (p ++ r) = some r :=
  stripStart_eq_some_iff.mpr rfl

theorem stripEnd_eq_some_iff {p t r : Text} : stripEnd p t = some r ↔ t = r ++ p := by
  constructor
  · intro h
    obtain ⟨s, hs, rfl⟩ := Option.map_eq_some_iff.mp h
    have := congrArg List.reverse (stripStart_eq_some_iff.mp hs)
    simpa using this
  · rintro rfl
    simp [stripEnd]

theorem append_of_cutAt {pattern t a b : Text} (h : cutAt pattern t = some (a, b)) :
    t = a ++ pattern ++ b := by
  induction t generalizing a with
  | nil =>
    cases pattern with
    | nil => simp [cutAt] at h; simp [h]
    | cons => simp [cutAt] at h
  | cons c cs ih =>
    unfold cutAt at h
    split at h
    · rename_i rest hr
      simp only [Option.some.injEq, Prod.mk.injEq] at h
      rw [stripStart_eq_some_iff.mp hr, ← h.1, ← h.2]
      rfl
    · obtain ⟨cut, hc, he⟩ := Option.map_eq_some_iff.mp h
      cases he
      simp [ih hc]

end Text

end SchemaDrift
