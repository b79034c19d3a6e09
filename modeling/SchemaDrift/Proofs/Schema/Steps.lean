import SchemaDrift.Model.OfTable
import SchemaDrift.Proofs.Statement.Names

namespace SchemaDrift

/-!
# Paths by their last step

A path that is not a name goes on from another path by one step. The step tells the path of the
field around it, the name inside it, and whether it names elements.
-/

namespace Path

theorem normal_cons {c : Char} {t : Text} (h : ∀ r, c :: t ≠ '[' :: '*' :: ']' :: r) :
    normal (c :: t) = c :: normal t := by
  rw [normal]
  rintro r rfl rfl
  exact h r rfl

/-- A star between brackets does not reach over a character that cannot stand inside it. -/
theorem normal_append {d : Char} (hstar : d ≠ '*') (hclose : d ≠ ']') (a b : Text) :
    normal (a ++ d :: b) = normal a ++ normal (d :: b) := by
  induction a using normal.induct with
  | case1 rest ih => simp only [List.cons_append, normal_star, ih]
  | case2 c rest hc ih =>
    have alone : ∀ r, c :: rest ≠ '[' :: '*' :: ']' :: r := by
      intro r he
      cases he
      exact hc r rfl rfl
    have joined : ∀ r, c :: (rest ++ d :: b) ≠ '[' :: '*' :: ']' :: r := by
      intro r he
      match rest, he with
      | [], he =>
        simp only [List.nil_append, List.cons.injEq] at he
        exact hstar he.2.1
      | [x], he =>
        simp only [List.cons_append, List.nil_append, List.cons.injEq] at he
        exact hclose he.2.2.1
      | x :: y :: rest, he =>
        simp only [List.cons_append, List.cons.injEq] at he
        obtain ⟨rfl, rfl, rfl, -⟩ := he
        exact alone rest rfl
    rw [List.cons_append, normal_cons joined, ih, normal_cons alone, List.cons_append]
  | case3 => rfl

theorem normal_dot (a b : Text) : normal (a ++ '.' :: b) = normal a ++ '.' :: normal b := by
  rw [normal_append (by decide) (by decide), normal_cons_of_ne b (by decide)]

/-- Only a dot at the start of a normal path may be new. -/
theorem eq_cons_of_normal_eq_cons {t r : Text} {c : Char} (hc : c ≠ '.') (h : normal t = c :: r) :
    ∃ t', t = c :: t' ∧ r = normal t' := by
  unfold normal at h
  split at h
  · exact absurd (List.cons.inj h).1.symm hc
  · rename_i c rest _
    obtain ⟨rfl, rfl⟩ := List.cons.inj h
    exact ⟨rest, rfl, rfl⟩
  · cases h

/-- No `[*]` is left in a normal path. -/
theorem normal_ne_append_star (t a r : Text) : normal t ≠ a ++ '[' :: '*' :: ']' :: r := by
  induction t using normal.induct generalizing a with
  | case1 rest ih =>
    rw [normal_star]
    intro he
    match a, he with
    | [], he => cases he
    | [_], he => cases he
    | _ :: _ :: a, he => exact ih a (List.cons.inj (List.cons.inj he).2).2
  | case2 c rest hc ih =>
    have alone : ∀ r, c :: rest ≠ '[' :: '*' :: ']' :: r := by
      rintro r he
      cases he
      exact hc r rfl rfl
    rw [normal_cons alone]
    intro he
    match a, he with
    | [], he =>
      obtain ⟨hopen, htail⟩ := List.cons.inj he
      obtain ⟨rest', hrest, hclose⟩ := eq_cons_of_normal_eq_cons (by decide) htail
      obtain ⟨rest'', hrest', -⟩ := eq_cons_of_normal_eq_cons (by decide) hclose.symm
      exact alone rest'' (by rw [hopen, hrest, hrest'])
    | _ :: a, he => exact ih a (List.cons.inj he).2
  | case3 =>
    intro he
    cases a <;> cases he

theorem normal_eq_self_of_ne {t : Text} (h : ∀ a r, t ≠ a ++ '[' :: '*' :: ']' :: r) :
    normal t = t := by
  induction t with
  | nil => rfl
  | cons c t ih =>
    rw [normal_cons fun r => h [] r, ih fun a r he => h (c :: a) r (by rw [he]; rfl)]

theorem beforeLastDot_isPrefix {t p : Text} (h : beforeLastDot t = some p) : p <+: t := by
  induction t generalizing p with
  | nil => cases h
  | cons c t ih =>
    unfold beforeLastDot at h
    split at h
    · rename_i q hq
      cases h
      exact List.cons_prefix_cons.mpr ⟨rfl, ih hq⟩
    · split at h
      · cases h
        exact List.nil_prefix
      · cases h

/-- The path of the field around another one is normal. -/
theorem normal_of_parent? {t p : Text} (h : parent? t = some p) : normal p = p := by
  obtain ⟨s, hs⟩ := beforeLastDot_isPrefix h
  refine normal_eq_self_of_ne fun a r he => ?_
  exact normal_ne_append_star t a (r ++ s) (by rw [← hs, he]; simp)

theorem beforeLastDot_eq_none {n : Text} (h : '.' ∉ n) : beforeLastDot n = none := by
  induction n with
  | nil => rfl
  | cons c n ih =>
    obtain ⟨hc, hn⟩ := not_or.mp fun hm => h (List.mem_cons.mpr hm)
    rw [beforeLastDot, ih hn]
    exact if_neg (Ne.symm hc)

theorem beforeLastDot_dot (p : Text) {n : Text} (h : '.' ∉ n) :
    beforeLastDot (p ++ '.' :: n) = some p := by
  induction p with
  | nil => rw [List.nil_append, beforeLastDot, beforeLastDot_eq_none h]; rfl
  | cons c p ih => rw [List.cons_append, beforeLastDot, ih]

theorem lastName_eq_self {n : Text} (h : '.' ∉ n) : lastName n = n := by
  cases n with
  | nil => rfl
  | cons c n => rw [lastName, if_neg (by simpa using h)]

theorem lastName_dot (p : Text) {n : Text} (h : '.' ∉ n) : lastName (p ++ '.' :: n) = n := by
  induction p with
  | nil => rw [List.nil_append, lastName, if_pos (by simp), lastName_eq_self h]
  | cons c p ih => rw [List.cons_append, lastName, if_pos (by simp), ih]

theorem isWildcard_iff {path : Text} :
    isWildcard path = true ↔ (∃ p, path = p ++ ['.', '*']) ∨ ∃ p, path = p ++ ['[', '*', ']'] := by
  unfold isWildcard
  rw [Bool.or_eq_true, Option.isSome_iff_exists, Option.isSome_iff_exists]
  simp only [Text.stripEnd_eq_some_iff]
  rfl

end Path

theorem IsName.not_mem {n : Text} (h : IsName n) {c : Char} (hc : Text.isNameChar c = false) :
    c ∉ n := fun hm => ne_of_isNameChar (h.2 c hm) hc rfl

theorem IsName.normal_eq {n : Text} (h : IsName n) : Path.normal n = n :=
  Path.normal_eq_self (h.not_mem (by decide))

theorem IsName.parent?_eq_none {n : Text} (h : IsName n) : Path.parent? n = none := by
  rw [Path.parent?, h.normal_eq]
  exact Path.beforeLastDot_eq_none (h.not_mem (by decide))

/-- A path is a name, or another path and a step. -/
theorem IsPath.cases {t : Text} (h : IsPath t) :
    IsName t ∨ ∃ p s, IsPath p ∧ IsStep s ∧ t = p ++ s := by
  obtain ⟨n, ss, hn, hss, rfl⟩ := h
  rcases List.eq_nil_or_concat ss with rfl | ⟨ss, s, rfl⟩
  · exact .inl (by simpa using hn)
  · refine .inr ⟨n ++ ss.flatten, s, ⟨n, ss, hn, fun s' hs => hss s' (by simp [hs]), rfl⟩,
      hss s (by simp), by simp⟩

namespace IsStep

variable {s : Text}

/-- Whether the step goes to the elements. -/
def isStar (s : Text) : Bool := s == ['.', '*'] || s == ['[', '*', ']']

theorem normal_append (h : IsStep s) (p : Text) :
    Path.normal (p ++ s) = Path.normal p ++ Path.normal s := by
  cases h with
  | name => exact Path.normal_append (by decide) (by decide) p _
  | star => exact Path.normal_append (by decide) (by decide) p _
  | element => exact Path.normal_append (by decide) (by decide) p _

/-- A step in its normal spelling: a dot, and a name or a star. -/
theorem exists_normal_eq (h : IsStep s) :
    ∃ n, Path.normal s = '.' :: n ∧ '.' ∉ n ∧ (n = ['*'] ↔ isStar s = true) := by
  cases h with
  | @name n hn =>
    refine ⟨n, ?_, hn.not_mem (by decide), ?_⟩
    · rw [Path.normal_cons_of_ne n (by decide), hn.normal_eq]
    · have hne : n ≠ ['*'] := by
        rintro rfl
        exact absurd hn (by decide)
      simp [isStar, hne]
  | star => exact ⟨['*'], rfl, by decide, by decide⟩
  | element => exact ⟨['*'], rfl, by decide, by decide⟩

theorem parent?_append (h : IsStep s) (p : Text) :
    Path.parent? (p ++ s) = some (Path.normal p) := by
  obtain ⟨n, hn, hdot, -⟩ := h.exists_normal_eq
  rw [Path.parent?, h.normal_append, hn, Path.beforeLastDot_dot _ hdot]

theorem isWildcard_append (h : IsStep s) (p : Text) :
    Path.isWildcard (p ++ s) = isStar s := by
  cases h with
  | @name n hn =>
    have hne : n ≠ ['*'] := by
      rintro rfl
      exact absurd hn (by decide)
    have last : ∀ c ∈ (p ++ '.' :: n).getLast?, c ∈ n := by
      intro c hc
      rw [show p ++ '.' :: n = (p ++ ['.']) ++ n by simp,
        List.getLast?_append_of_ne_nil _ hn.1] at hc
      exact List.mem_of_mem_getLast? hc
    have plain : Path.isWildcard (p ++ '.' :: n) = false := by
      rw [← Bool.not_eq_true, Path.isWildcard_iff]
      rintro (⟨q, hq⟩ | ⟨q, hq⟩)
      · exact hn.not_mem (by decide) (last '*' (by rw [hq]; simp))
      · exact hn.not_mem (by decide) (last ']' (by rw [hq]; simp))
    simp [plain, isStar, hne]
  | star => simpa [isStar] using Path.isWildcard_iff.mpr (.inl ⟨p, rfl⟩)
  | element => simpa [isStar] using Path.isWildcard_iff.mpr (.inr ⟨p, rfl⟩)

/-- A step that does not go to the elements has a name. -/
theorem lastName_append (h : IsStep s) (hs : isStar s = false) (p : Text) :
    Path.normal s = '.' :: Path.lastName (p ++ s) := by
  cases h with
  | @name n hn =>
    rw [Path.lastName_dot p (hn.not_mem (by decide)), Path.normal_cons_of_ne n (by decide),
      hn.normal_eq]
  | star => cases hs
  | element => cases hs

theorem normal_of_isStar (hs : isStar s = true) : Path.normal s = ['.', '*'] := by
  rcases Bool.or_eq_true_iff.mp hs with h | h
  · rw [eq_of_beq h]
    rfl
  · rw [eq_of_beq h]
    rfl

end IsStep

/-! ## The field around a path -/

section Around

variable {t p : Text}

/-- The normal path is that of the field around it with one more step. -/
theorem IsPath.normal_eq_of_parent? (h : IsPath t) (hp : Path.parent? t = some p) :
    Path.normal t = p ++ (if Path.isWildcard t then ['.', '*'] else '.' :: Path.lastName t) := by
  rcases h.cases with hn | ⟨q, s, -, hs, rfl⟩
  · rw [hn.parent?_eq_none] at hp
    cases hp
  · rw [hs.parent?_append q] at hp
    cases hp
    rw [hs.normal_append q, hs.isWildcard_append q]
    split
    · rename_i hstar
      rw [IsStep.normal_of_isStar hstar]
    · rename_i hstar
      rw [hs.lastName_append (by simpa using hstar) q]

/-- What a field adds to the normal path of the field around it. -/
def Path.step (t : Text) : Text :=
  if Path.isWildcard t then ['.', '*'] else '.' :: Path.lastName t

theorem IsPath.normal_eq_append_step (h : IsPath t) (hp : Path.parent? t = some p) :
    Path.normal t = p ++ Path.step t := h.normal_eq_of_parent? hp

theorem IsPath.normal_append_step (h : IsPath t) (hp : Path.parent? t = some p) (n : Text) :
    Path.normal (n ++ Path.step t) = Path.normal n ++ Path.step t := by
  have whole := h.normal_eq_append_step hp
  unfold Path.step at whole ⊢
  split
  · rw [Path.normal_dot]
    rfl
  · rename_i hw
    rw [if_neg hw] at whole
    rw [Path.normal_dot, Path.normal_eq_self_of_ne (t := Path.lastName t)]
    intro a r he
    exact Path.normal_ne_append_star t (p ++ '.' :: a) r (by rw [whole, he]; simp)

theorem IsPath.isTopLevel_iff (h : IsPath t) : Path.isTopLevel t = true ↔ IsName t := by
  rcases h.cases with hn | ⟨q, s, hq, hs, rfl⟩
  · refine ⟨fun _ => hn, fun _ => ?_⟩
    have dot : '.' ∉ t := hn.not_mem (by decide)
    have opening : '[' ∉ t := hn.not_mem (by decide)
    have plain : Path.isWildcard t = false := by
      rw [← Bool.not_eq_true, Path.isWildcard_iff]
      rintro (⟨q, rfl⟩ | ⟨q, rfl⟩)
      · exact dot (by simp)
      · exact opening (by simp)
    simp [Path.isTopLevel, Path.isNested, plain, dot, opening]
  · have inside : '.' ∈ q ++ s ∨ '[' ∈ q ++ s := by
      cases hs with
      | name => exact .inl (by simp)
      | star => exact .inl (by simp)
      | element => exact .inr (by simp)
    have notName : ¬ IsName (q ++ s) := by
      intro hn
      rcases inside with hm | hm
      · exact hn.not_mem (by decide) hm
      · exact hn.not_mem (by decide) hm
    refine ⟨fun htop => absurd htop ?_, fun hn => absurd hn notName⟩
    rcases inside with hm | hm
    · simp [Path.isTopLevel, Path.isNested, hm]
    · simp [Path.isTopLevel, Path.isNested, hm]

end Around

end SchemaDrift
