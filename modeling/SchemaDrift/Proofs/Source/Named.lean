import SchemaDrift.Code.Search
import SchemaDrift.Proofs.Schema.Steps
import SchemaDrift.Proofs.Text.Escape
import SchemaDrift.Source.Builder

namespace SchemaDrift

/-!
# The names of entries

An entry is told by the name at its start, which is read as it is written. Escapes have neither dots
nor brackets, so a name is of a field of the table itself just if the written name looks like one.
-/

namespace Code

theorem quotedName?_append_of_forall {t : Text} (h : ∀ c ∈ t, c ≠ '"' ∧ c ≠ '\\') (rest : Text) :
    quotedName? (t ++ rest) = (quotedName? rest).map (t ++ ·) := by
  induction t with
  | nil => simp
  | cons c t ih =>
    obtain ⟨⟨hquote, hback⟩, ht⟩ := List.forall_mem_cons.mp h
    have step : quotedName? (c :: (t ++ rest)) = (quotedName? (t ++ rest)).map (c :: ·) := by
      rw [quotedName?.eq_def]
      split
      · cases ‹c :: (t ++ rest) = []›
      · exact absurd (List.cons.inj ‹c :: (t ++ rest) = _›).1 hquote
      · exact absurd (List.cons.inj ‹c :: (t ++ rest) = _›).1 hback
      · rename_i he
        obtain ⟨rfl, rfl⟩ := List.cons.inj he
        rw [if_neg hback]
    rw [List.cons_append, step, ih ht, Option.map_map]
    rfl

theorem quotedName?_backslash {d : Char} (h : d ≠ '\n') (rest : Text) :
    quotedName? ('\\' :: d :: rest) = (quotedName? rest).map ('\\' :: d :: ·) := by
  rw [quotedName?, if_neg h]

theorem quotedName?_escape (c : Char) (rest : Text) :
    quotedName? (Text.escape c ++ rest) = (quotedName? rest).map (Text.escape c ++ ·) := by
  rcases Text.escape_cases c with ⟨he, hc⟩ | ⟨d, tail, he, hd, -, htail⟩
  · rw [he]
    exact quotedName?_append_of_forall (by simpa using hc) rest
  · rw [he, List.cons_append, List.cons_append, quotedName?_backslash hd,
      quotedName?_append_of_forall htail, Option.map_map]
    rfl

theorem quotedName?_flatMap_escape (t rest : Text) :
    quotedName? (t.flatMap Text.escape ++ '"' :: rest) = some (t.flatMap Text.escape) := by
  induction t with
  | nil => simp [quotedName?]
  | cons c t ih =>
    rw [List.flatMap_cons, List.append_assoc, quotedName?_escape, ih, Option.map_some]

/-- The name of an entry is read as it is written. -/
theorem entryName?_entry (name : Text) (d : Declaration) (indent : Text) :
    entryName? ("(" ++ Text.quote name ++ ", " ++ Source.builder indent d ++ ")") =
      some (name.flatMap Text.escape) := by
  have form : ("(" ++ Text.quote name ++ ", " ++ Source.builder indent d ++ ")" : Text) =
      '(' :: '"' :: (name.flatMap Text.escape ++
        '"' :: (", " ++ Source.builder indent d ++ ")" : Text)) := by simp [Text.quote]
  rw [form]
  exact quotedName?_flatMap_escape name _

end Code

namespace Path

theorem isTopLevel_eq_true_iff {name : Text} :
    isTopLevel name = true ↔ '.' ∉ name ∧ '[' ∉ name := by
  unfold isTopLevel isNested
  constructor
  · intro h
    simpa using (Bool.and_eq_true_iff.mp h).1
  · rintro ⟨hdot, hopen⟩
    have proper : isWildcard name = false := by
      by_contra hw
      rcases isWildcard_iff.mp (by simpa using hw) with ⟨p, rfl⟩ | ⟨p, rfl⟩
      · exact hdot (by simp)
      · exact hopen (by simp)
    simp [hdot, hopen, proper]

theorem mem_normal_of_mem {path : Text} (h : '.' ∈ path ∨ '[' ∈ path) :
    '.' ∈ normal path ∨ '[' ∈ normal path := by
  induction path using normal.induct with
  | case1 rest _ => exact .inl (by rw [normal_star]; exact List.mem_cons_self)
  | case2 c rest hc ih =>
    rw [normal_cons fun r he => by cases he; exact hc r rfl rfl]
    rcases h with h | h
    · rcases List.mem_cons.mp h with rfl | h
      · exact .inl List.mem_cons_self
      · exact (ih (.inl h)).imp (List.mem_cons_of_mem c) (List.mem_cons_of_mem c)
    · rcases List.mem_cons.mp h with rfl | h
      · exact .inr List.mem_cons_self
      · exact (ih (.inr h)).imp (List.mem_cons_of_mem c) (List.mem_cons_of_mem c)
  | case3 => simp at h

/-- A field of the table itself and one inside another have different paths. -/
theorem normal_ne_of_isTopLevel {a b : Text} (ha : isTopLevel a = true)
    (hb : isTopLevel b = false) : normal a ≠ normal b := by
  obtain ⟨hdot, hopen⟩ := isTopLevel_eq_true_iff.mp ha
  have inside : '.' ∈ b ∨ '[' ∈ b := by
    by_contra h
    rw [isTopLevel_eq_true_iff.mpr (not_or.mp h)] at hb
    cases hb
  rw [normal_eq_self hopen]
  rintro rfl
  exact (mem_normal_of_mem inside).elim hdot hopen

theorem isTopLevel_flatMap_escape {name : Text} (h : isTopLevel name = true) :
    isTopLevel (name.flatMap Text.escape) = true := by
  obtain ⟨hdot, hopen⟩ := isTopLevel_eq_true_iff.mp h
  have plain {x : Char} (hx : x ∈ name.flatMap Text.escape) : x ≠ '.' ∧ x ≠ '[' := by
    obtain ⟨c, hc, hx⟩ := List.mem_flatMap.mp hx
    refine Text.ne_of_mem_escape ⟨?_, ?_⟩ hx
    · rintro rfl
      exact hdot hc
    · rintro rfl
      exact hopen hc
  exact isTopLevel_eq_true_iff.mpr ⟨fun hx => (plain hx).1 rfl, fun hx => (plain hx).2 rfl⟩

end Path

/-! ## Paths -/

theorem Text.escape_eq_self {c : Char} (h : isNameChar c = true ∨ c ∈ ['.', '*', '[', ']']) :
    escape c = [c] := by
  have ascii : ∀ n < 127, 32 ≤ n → graphemeExtend.has n = false ∧ unprintable.has n = false := by
    decide +kernel
  have other : ∀ n ∈ [0x17f, 0x212a], graphemeExtend.has n = false ∧ unprintable.has n = false := by
    decide +kernel
  have place : (32 ≤ c.toNat ∧ c.toNat < 127) ∨ c.toNat ∈ [0x17f, 0x212a] := by
    rcases h with h | h
    · have range := toNat_of_isNameChar h
      simp only [List.mem_cons, List.not_mem_nil, or_false]
      omega
    · revert h
      revert c
      decide
  have glyph : graphemeExtend.has c.toNat = false ∧ unprintable.has c.toNat = false :=
    place.elim (fun hn => ascii _ hn.2 hn.1) (other _)
  have control {d : Char} (hd : d.toNat < 32) : c ≠ d := by
    rintro rfl
    simp only [List.mem_cons, List.not_mem_nil, or_false] at place
    omega
  have mark {d : Char} (hd : isNameChar d = false ∧ d ∉ ['.', '*', '[', ']']) : c ≠ d := by
    rintro rfl
    rcases h with h | h
    · rw [hd.1] at h
      cases h
    · exact hd.2 h
  rw [escape, if_neg (control (by decide)), if_neg (control (by decide)),
    if_neg (control (by decide)), if_neg (control (by decide)), if_neg (mark (by decide)),
    if_neg (mark (by decide)), glyph.1, glyph.2]
  rfl

theorem IsPath.flatMap_escape {path : Text} (h : IsPath path) :
    path.flatMap Text.escape = path := by
  have own (t : Text) (ht : ∀ c ∈ t, Text.isNameChar c = true ∨ c ∈ ['.', '*', '[', ']']) :
      t.flatMap Text.escape = t := by
    induction t with
    | nil => rfl
    | cons c t ih =>
      obtain ⟨hc, hrest⟩ := List.forall_mem_cons.mp ht
      rw [List.flatMap_cons, Text.escape_eq_self hc, ih hrest]
      rfl
  have star : ∀ c ∈ ['.', '*'], c ∈ ['.', '*', '[', ']'] := by decide
  have element : ∀ c ∈ ['[', '*', ']'], c ∈ ['.', '*', '[', ']'] := by decide
  obtain ⟨n, steps, hn, hsteps, rfl⟩ := h
  refine own _ fun c hc => ?_
  rcases List.mem_append.mp hc with hc | hc
  · exact .inl (hn.2 c hc)
  · obtain ⟨s, hs, hc⟩ := List.mem_flatten.mp hc
    cases hsteps s hs with
    | name hname =>
      rcases List.mem_cons.mp hc with rfl | hc
      · exact .inr (by decide)
      · exact .inl (hname.2 c hc)
    | star => exact .inr (star c hc)
    | element => exact .inr (element c hc)

end SchemaDrift