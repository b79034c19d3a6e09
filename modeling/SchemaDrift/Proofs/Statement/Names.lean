import SchemaDrift.Proofs.Statement.Closed
import SchemaDrift.Statement.Head

namespace SchemaDrift

/-!
# Names and paths

A name is made of letters, digits and underscores, and a path of names and stars. In front of a text
that does not continue them, both are read back as they stand.
-/

/-- Whether the text is a name: letters, digits and underscores, and at least one of them. The two
characters outside ASCII that count as letters may stand in it as well. -/
def IsName (t : Text) : Prop := t ≠ [] ∧ ∀ c ∈ t, Text.isNameChar c = true

instance (t : Text) : Decidable (IsName t) :=
  inferInstanceAs (Decidable (t ≠ [] ∧ ∀ c ∈ t, Text.isNameChar c = true))

/-- A step of a path: a name behind a dot, or a star in one of its spellings. -/
inductive IsStep : Text → Prop
  | name {n : Text} (h : IsName n) : IsStep ('.' :: n)
  | star : IsStep ['.', '*']
  | element : IsStep ['[', '*', ']']

/-- Whether the text is a path: a name and any number of steps. -/
def IsPath (t : Text) : Prop :=
  ∃ (n : Text) (steps : List Text), IsName n ∧ (∀ s ∈ steps, IsStep s) ∧ t = n ++ steps.flatten

theorem IsName.isPath {n : Text} (h : IsName n) : IsPath n := ⟨n, [], h, by simp, by simp⟩

/-! ## Characters of names -/

theorem isAlphanum_iff {c : Char} : c.isAlphanum = true ↔
    (65 ≤ c.toNat ∧ c.toNat ≤ 90) ∨ (97 ≤ c.toNat ∧ c.toNat ≤ 122) ∨
      (48 ≤ c.toNat ∧ c.toNat ≤ 57) := by
  unfold Char.isAlphanum Char.isAlpha Char.isUpper Char.isLower Char.isDigit
  simp only [ge_iff_le, UInt32.le_iff_toNat_le, Bool.or_eq_true, Bool.and_eq_true,
    decide_eq_true_eq]
  change ((65 ≤ c.toNat ∧ c.toNat ≤ 90 ∨ 97 ≤ c.toNat ∧ c.toNat ≤ 122) ∨
    48 ≤ c.toNat ∧ c.toNat ≤ 57) ↔ _
  omega

/-- The number of a letter whose case is changed, and of any other character. -/
theorem toNat_changeCase {f : Char → Char} {first last shift : UInt32}
    (h : ∀ c, (f c).val = if first ≤ c.val ∧ c.val ≤ last then c.val + shift else c.val)
    (c : Char) : (f c).toNat = if first.toNat ≤ c.toNat ∧ c.toNat ≤ last.toNat then
      (c.toNat + shift.toNat) % UInt32.size else c.toNat := by
  have number := congrArg UInt32.toNat (h c)
  simp only [apply_ite UInt32.toNat, UInt32.toNat_add, UInt32.le_iff_toNat_le] at number
  exact number

theorem toNat_toLower (c : Char) :
    c.toLower.toNat = if 65 ≤ c.toNat ∧ c.toNat ≤ 90 then c.toNat + 32 else c.toNat := by
  have moved (c : Char) : c.toLower.val =
      if 'A'.val ≤ c.val ∧ c.val ≤ 'Z'.val then c.val + ('a'.val - 'A'.val) else c.val :=
    apply_dite Char.val _ _ _
  have number : c.toLower.toNat =
      if 65 ≤ c.toNat ∧ c.toNat ≤ 90 then (c.toNat + 32) % 4294967296 else c.toNat :=
    toNat_changeCase moved c
  rw [number]
  split <;> omega

theorem toNat_toUpper (c : Char) :
    c.toUpper.toNat = if 97 ≤ c.toNat ∧ c.toNat ≤ 122 then c.toNat - 32 else c.toNat := by
  have moved (c : Char) : c.toUpper.val =
      if 'a'.val ≤ c.val ∧ c.val ≤ 'z'.val then c.val + ('A'.val - 'a'.val) else c.val :=
    apply_dite Char.val _ _ _
  -- The shift wraps around.
  have number : c.toUpper.toNat =
      if 97 ≤ c.toNat ∧ c.toNat ≤ 122 then (c.toNat + 4294967264) % 4294967296 else c.toNat :=
    toNat_changeCase moved c
  rw [number]
  split <;> omega

theorem toNat_of_isNameChar {c : Char} (h : Text.isNameChar c = true) :
    (65 ≤ c.toNat ∧ c.toNat ≤ 90) ∨ (97 ≤ c.toNat ∧ c.toNat ≤ 122) ∨
      (48 ≤ c.toNat ∧ c.toNat ≤ 57) ∨ c.toNat = 95 ∨ c.toNat = 0x17f ∨ c.toNat = 0x212a := by
  rcases Bool.or_eq_true_iff.mp h with h | h
  · unfold Text.fold at h
    split at h
    · rename_i hs
      rw [hs]
      decide
    · split at h
      · rename_i hk
        rw [hk]
        decide
      · have hn := isAlphanum_iff.mp h
        rw [toNat_toLower] at hn
        split at hn <;> omega
  · rw [eq_of_beq h]
    decide

theorem ne_of_isNameChar {c d : Char} (h : Text.isNameChar c = true)
    (hd : Text.isNameChar d = false) : c ≠ d := ne_of_apply_ne Text.isNameChar (by simp [h, hd])

/-- Neither a visible character of ASCII nor one of the two that fold to it is blank. -/
theorem Text.isBlank_eq_false_of_toNat {c : Char}
    (h : (33 ≤ c.toNat ∧ c.toNat ≤ 126) ∨ c.toNat = 0x17f ∨ c.toNat = 0x212a) :
    Text.isBlank c = false := by
  simp only [Text.isBlank, Bool.or_eq_false_iff, Bool.and_eq_false_iff, decide_eq_false_iff_not,
    beq_eq_false_iff_ne, ne_eq]
  omega

theorem isBlank_of_isNameChar {c : Char} (h : Text.isNameChar c = true) :
    Text.isBlank c = false := by
  have range := toNat_of_isNameChar h
  exact Text.isBlank_eq_false_of_toNat (by omega)

theorem Text.toLower_of_isBlank {c : Char} (h : Text.isBlank c = true) : c.toLower = c := by
  apply Char.toNat_inj.mp
  rw [toNat_toLower, if_neg]
  simp only [Text.isBlank, Bool.or_eq_true, Bool.and_eq_true, decide_eq_true_eq, beq_iff_eq] at h
  omega

theorem Text.fold_of_isBlank {c : Char} (h : Text.isBlank c = true) : Text.fold c = c := by
  have other (d : Char) (hd : Text.isBlank d = false) : c ≠ d :=
    ne_of_apply_ne Text.isBlank (by simp [h, hd])
  rw [Text.fold, if_neg (other _ (by decide)), if_neg (other _ (by decide)), toLower_of_isBlank h]

theorem IsName.isTrimmed {n : Text} (h : IsName n) : Text.IsTrimmed n :=
  Text.isTrimmed_of_forall_not_blank h.1 fun c hc => isBlank_of_isNameChar (h.2 c hc)

/-! ## Names and paths are closed -/

theorem IsName.closed {n : Text} (h : IsName n) : Script.Closed n := by
  apply Script.Closed.of_forall
  intro c hc
  have hi := h.2 c hc
  have other : ∀ d, Text.isNameChar d = false → c ≠ d := fun d hd => ne_of_isNameChar hi hd
  refine ⟨?_, other _ (by decide), other _ (by decide), other _ (by decide), other _ (by decide),
    ?_⟩
  · simp [Script.isQuote, other '\'' (by decide), other '"' (by decide), other '\x60' (by decide)]
  · simp [Script.bracket, other '(' (by decide), other '[' (by decide), other '\x7b' (by decide),
      other ')' (by decide), other ']' (by decide), other '\x7d' (by decide)]

theorem IsStep.closed {s : Text} (h : IsStep s) : Script.Closed s := by
  cases h with
  | name hn =>
    apply Script.Closed.cons (by decide) hn.closed
    intro c hc
    have hi := hn.2 c (List.mem_of_mem_head? hc)
    exact ⟨ne_of_isNameChar hi (by decide), ne_of_isNameChar hi (by decide)⟩
  | star => decide
  | element => decide

theorem noCommentTail_flatten {steps : List Text} (h : ∀ s ∈ steps, IsStep s) :
    Script.NoCommentTail steps.flatten := by
  cases steps with
  | nil => simp [Script.NoCommentTail]
  | cons s steps => cases h s List.mem_cons_self <;> (rintro _ ⟨⟩; decide)

theorem IsPath.closed {t : Text} (h : IsPath t) : Script.Closed t := by
  obtain ⟨n, steps, hn, hsteps, rfl⟩ := h
  refine hn.closed.append ?_ (noCommentTail_flatten hsteps)
  induction steps with
  | nil => rfl
  | cons s steps ih =>
    have rest : ∀ s' ∈ steps, IsStep s' := fun s' hs => hsteps s' (List.mem_cons_of_mem s hs)
    exact (hsteps s List.mem_cons_self).closed.append (ih rest) (noCommentTail_flatten rest)

theorem IsStep.isBlank_eq_false {s : Text} (h : IsStep s) : ∀ c ∈ s, Text.isBlank c = false := by
  cases h with
  | name hn =>
    intro c hc
    rcases List.mem_cons.mp hc with rfl | hc
    · decide
    · exact isBlank_of_isNameChar (hn.2 c hc)
  | star => decide
  | element => decide

theorem IsPath.isBlank_eq_false {t : Text} (h : IsPath t) : ∀ c ∈ t, Text.isBlank c = false := by
  obtain ⟨n, steps, hn, hsteps, rfl⟩ := h
  intro c hc
  rcases List.mem_append.mp hc with hc | hc
  · exact isBlank_of_isNameChar (hn.2 c hc)
  · obtain ⟨s, hs, hc⟩ := List.mem_flatten.mp hc
    exact (hsteps s hs).isBlank_eq_false c hc

theorem IsPath.isTrimmed {t : Text} (h : IsPath t) : Text.IsTrimmed t := by
  refine Text.isTrimmed_of_forall_not_blank ?_ h.isBlank_eq_false
  obtain ⟨n, steps, hn, -, rfl⟩ := h
  simp [hn.1]

/-! ## Names and paths are read back -/

/-- Whether neither a name nor a path goes on with this text. -/
def EndsPath (rest : Text) : Prop :=
  ∀ c ∈ rest.head?, Text.isNameChar c = false ∧ c ≠ '.' ∧ c ≠ '['

/-- Whether a name does not go on with this text. -/
def EndsName (rest : Text) : Prop := ∀ c ∈ rest.head?, Text.isNameChar c = false

theorem endsName_flatten {steps : List Text} (h : ∀ s ∈ steps, IsStep s) {rest : Text}
    (hr : EndsPath rest) : EndsName (steps.flatten ++ rest) := by
  cases steps with
  | nil => exact fun c hc => (hr c hc).1
  | cons s steps => cases h s List.mem_cons_self <;> (rintro _ ⟨⟩; decide)

theorem takeName?_append {n rest : Text} (hn : IsName n) (hr : EndsName rest) :
    Text.takeName? (n ++ rest) = some (n, rest) := by
  have inside : ∀ c ∈ n, Text.isNameChar c = true := fun c hc =>
    hn.2 c hc
  have stop : rest.takeWhile Text.isNameChar = [] ∧ rest.dropWhile Text.isNameChar = rest := by
    cases rest with
    | nil => exact ⟨rfl, rfl⟩
    | cons c cs => simp [hr c rfl]
  rw [Text.takeName?, List.takeWhile_append_of_pos inside, List.dropWhile_append_of_pos inside,
    stop.1, stop.2, List.append_nil]
  cases n with
  | nil => exact absurd rfl hn.1
  | cons c cs => rfl

theorem step?_append {s rest : Text} (hs : IsStep s) (hr : EndsName rest) :
    Head.step? (s ++ rest) = some (s, rest) := by
  cases hs with
  | star => rfl
  | element => rfl
  | @name n hn =>
    have hname := takeName?_append hn hr
    cases n with
    | nil => exact absurd rfl hn.1
    | cons c cs =>
      have hstar : c ≠ '*' := ne_of_isNameChar (hn.2 c List.mem_cons_self) (by decide)
      rw [List.cons_append, List.cons_append]
      unfold Head.step?
      split
      · rename_i heq
        exact absurd (List.cons.inj (List.cons.inj heq).2).1 hstar
      · rename_i heq
        cases (List.cons.inj heq).1
      · rename_i heq
        rw [← (List.cons.inj heq).2, ← List.cons_append, hname]
        rfl
      · rename_i hdot
        exact absurd rfl (hdot _)

theorem step?_of_endsPath {rest : Text} (h : EndsPath rest) : Head.step? rest = none := by
  unfold Head.step?
  split
  · exact absurd rfl (h '.' rfl).2.1
  · exact absurd rfl (h '[' rfl).2.2
  · exact absurd rfl (h '.' rfl).2.1
  · rfl

theorem steps_flatten {ss : List Text} (h : ∀ s ∈ ss, IsStep s) {rest : Text} (hr : EndsPath rest) :
    Head.steps (ss.flatten ++ rest) = (ss.flatten, rest) := by
  induction ss with
  | nil =>
    have hstop := step?_of_endsPath hr
    rw [List.flatten_nil, List.nil_append, Head.steps]
    split
    · rfl
    · rename_i heq
      rw [hstop] at heq
      cases heq
  | cons s ss ih =>
    have hss : ∀ s' ∈ ss, IsStep s' := fun s' hs => h s' (List.mem_cons_of_mem s hs)
    have here := step?_append (h s List.mem_cons_self) (endsName_flatten hss hr)
    rw [List.flatten_cons, List.append_assoc, Head.steps]
    split
    · rename_i heq
      rw [here] at heq
      cases heq
    · rename_i heq
      rw [here] at heq
      cases heq
      rw [ih hss]

/-- A path is read back in front of a text that does not continue it. -/
theorem path?_append {t : Text} (h : IsPath t) {rest : Text} (hr : EndsPath rest) :
    Head.path? (t ++ rest) = some (t, rest) := by
  obtain ⟨n, ss, hn, hss, rfl⟩ := h
  rw [List.append_assoc, Head.path?, takeName?_append hn (endsName_flatten hss hr)]
  simp only [Option.bind_eq_bind, Option.bind_some, steps_flatten hss hr]
  rfl

/-! ## What is read as a path -/

theorem isName_of_takeName? {t n rest : Text} (h : Text.takeName? t = some (n, rest)) :
    IsName n := by
  unfold Text.takeName? at h
  split at h
  · cases h
  · rename_i c cs hc
    cases h
    refine ⟨by simp, fun d hd => ?_⟩
    rw [← hc] at hd
    exact List.mem_takeWhile_imp hd

theorem isStep_of_step? {t s rest : Text} (h : Head.step? t = some (s, rest)) : IsStep s := by
  unfold Head.step? at h
  split at h
  · cases h
    exact .star
  · cases h
    exact .element
  · obtain ⟨⟨n, r⟩, hn, he⟩ := Option.map_eq_some_iff.mp h
    cases he
    exact .name (isName_of_takeName? hn)
  · cases h

theorem exists_steps_eq_flatten (t : Text) :
    ∃ ss : List Text, (∀ s ∈ ss, IsStep s) ∧ (Head.steps t).1 = ss.flatten := by
  induction t using Head.steps.induct with
  | case1 t hnone =>
    refine ⟨[], by simp, ?_⟩
    rw [Head.steps]
    split
    · rfl
    · rename_i heq
      rw [hnone] at heq
      cases heq
  | case2 t s rest hsome ih =>
    obtain ⟨ss, hss, hflat⟩ := ih
    refine ⟨s :: ss, List.forall_mem_cons.mpr ⟨isStep_of_step? hsome, hss⟩, ?_⟩
    rw [Head.steps]
    split
    · rename_i heq
      rw [hsome] at heq
      cases heq
    · rename_i heq
      rw [hsome] at heq
      cases heq
      rw [hflat, List.flatten_cons]

/-- The paths are the texts that are read as a path to their end. -/
theorem isPath_iff {t : Text} : IsPath t ↔ Head.path? t = some (t, []) := by
  constructor
  · intro h
    have ends : EndsPath [] := by simp [EndsPath]
    have read := path?_append h ends
    rwa [List.append_nil] at read
  · intro h
    obtain ⟨⟨n, rest⟩, hn, h⟩ := Option.bind_eq_some_iff.mp h
    obtain ⟨ss, hss, hflat⟩ := exists_steps_eq_flatten rest
    have path : n ++ (Head.steps rest).1 = t := congrArg Prod.fst (Option.some.inj h)
    rw [hflat] at path
    exact ⟨n, ss, isName_of_takeName? hn, hss, path.symm⟩

instance (t : Text) : Decidable (IsPath t) := decidable_of_iff _ isPath_iff.symm

end SchemaDrift
