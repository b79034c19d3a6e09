import Mathlib.Data.List.TakeWhile
import SchemaDrift.Proofs.Code.Cut

namespace SchemaDrift.Code

/-!
# Exchanging what follows

Behind a piece that is complete the text can be exchanged without a change to the pieces in front.
-/

variable {before : Option Char} {c : Char} {cs rest a x y : Text} {p : Piece} {ps qs : List Piece}

theorem stringRest_exchange {escaped : Bool} (h : stringRest escaped (a ++ x) = a.length)
    (hx : x ≠ []) : ['"'] <:+ a ∧ ∀ y, stringRest escaped (a ++ y) = a.length := by
  induction a generalizing escaped with
  | nil =>
    cases x with
    | nil => exact absurd rfl hx
    | cons d x =>
      simp only [List.nil_append, stringRest, List.length_nil] at h
      split at h <;> (try split at h) <;> (try split at h) <;> omega
  | cons d a ih =>
    have goesOn {next : Bool} (hrest : stringRest next (a ++ x) + 1 = a.length + 1) :
        ['"'] <:+ d :: a ∧ ∀ y, stringRest next (a ++ y) + 1 = a.length + 1 := by
      obtain ⟨ends, same⟩ := ih (Nat.add_right_cancel hrest)
      exact ⟨ends.trans (List.suffix_cons d a), fun y => by rw [same y]⟩
    simp only [List.cons_append, stringRest, List.length_cons] at h ⊢
    by_cases he : escaped = true
    · simp only [if_pos he] at h ⊢
      exact goesOn h
    · by_cases hd : d = '\\'
      · simp only [if_neg he, if_pos hd] at h ⊢
        exact goesOn h
      · by_cases hq : d = '"'
        · simp only [if_neg he, if_neg hd, if_pos hq] at h ⊢
          rw [List.eq_nil_of_length_eq_zero (by omega : a.length = 0), hq]
          exact ⟨List.suffix_refl _, fun _ => rfl⟩
        · simp only [if_neg he, if_neg hd, if_neg hq] at h ⊢
          exact goesOn h

theorem stripStart_isSome_iff {pattern t : Text} :
    (Text.stripStart pattern t).isSome = true ↔ pattern <+: t := by
  rw [Option.isSome_iff_exists]
  exact exists_congr fun r => Text.stripStart_eq_some_iff.trans eq_comm

theorem through_exchange {pattern : Text} (hne : pattern ≠ [])
    (h : through pattern (a ++ x) = a.length) (hx : x ≠ []) :
    pattern <:+ a ∧ ∀ y, through pattern (a ++ y) = a.length := by
  have positive : 0 < pattern.length := List.length_pos_iff.mpr hne
  induction a with
  | nil =>
    cases x with
    | nil => exact absurd rfl hx
    | cons d x =>
      simp only [List.nil_append, through, List.length_nil] at h
      split at h <;> omega
  | cons d a ih =>
    simp only [List.cons_append, through, List.length_cons] at h ⊢
    split at h
    · rename_i hp
      have whole : pattern = d :: a :=
        (List.prefix_iff_eq_take.mp (stripStart_isSome_iff.mp hp)).trans (by simp [h])
      refine ⟨whole ▸ List.suffix_refl _, fun y => ?_⟩
      rw [if_pos, whole, List.length_cons]
      rw [stripStart_isSome_iff, whole]
      exact ⟨y, rfl⟩
    · rename_i hp
      obtain ⟨ends, same⟩ := ih (by omega)
      refine ⟨ends.trans (List.suffix_cons d a), fun y => ?_⟩
      rw [if_neg, same y]
      intro hy
      refine hp (stripStart_isSome_iff.mpr ?_)
      have short : pattern.length ≤ (d :: a).length := by
        have := ends.length_le
        simp only [List.length_cons]
        omega
      have inside : pattern <+: d :: a :=
        List.prefix_of_prefix_length_le (stripStart_isSome_iff.mp hy) ⟨y, rfl⟩ short
      exact inside.trans ⟨x, rfl⟩

theorem blockComment_pos {depth : Nat} (hx : x ≠ []) : 0 < blockComment depth x := by
  unfold blockComment
  split
  · omega
  · split <;> omega
  · omega
  · exact absurd rfl hx

/-- A character that opens or closes no comment is one more character. -/
theorem blockComment_cons {depth : Nat} {c d : Char} (hopen : ¬(c = '/' ∧ d = '*'))
    (hclose : ¬(c = '*' ∧ d = '/')) (t : Text) :
    blockComment depth (c :: d :: t) = blockComment depth (d :: t) + 1 := by
  rw [blockComment]
  · rintro cs rfl h
    exact hopen ⟨rfl, (List.cons.inj h).1⟩
  · rintro cs rfl h
    exact hclose ⟨rfl, (List.cons.inj h).1⟩

theorem blockComment_exchange {a x : Text} {depth : Nat}
    (h : blockComment depth (a ++ x) = a.length)
    (hx : x ≠ []) : ['*', '/'] <:+ a ∧ ∀ y, blockComment depth (a ++ y) = a.length := by
  match a with
  | [] =>
    have positive : 0 < blockComment depth x := blockComment_pos hx
    rw [List.nil_append] at h
    simp only [List.length_nil] at h
    omega
  | [c] =>
    cases x with
    | nil => exact absurd rfl hx
    | cons d x =>
      simp only [List.cons_append, List.nil_append, List.length_cons, List.length_nil] at h
      have positive : 0 < blockComment depth (d :: x) := blockComment_pos hx
      by_cases hopen : c = '/' ∧ d = '*'
      · obtain ⟨rfl, rfl⟩ := hopen
        rw [blockComment] at h
        omega
      · by_cases hclose : c = '*' ∧ d = '/'
        · obtain ⟨rfl, rfl⟩ := hclose
          rw [blockComment] at h
          split at h <;> omega
        · rw [blockComment_cons hopen hclose] at h
          omega
  | c :: d :: a =>
    simp only [List.cons_append, List.length_cons] at h ⊢
    by_cases hopen : c = '/' ∧ d = '*'
    · obtain ⟨rfl, rfl⟩ := hopen
      rw [blockComment] at h
      have inner : blockComment (depth + 1) (a ++ x) = a.length := by omega
      obtain ⟨ends, same⟩ := blockComment_exchange inner hx
      refine ⟨ends.trans ⟨['/', '*'], rfl⟩, fun y => ?_⟩
      rw [blockComment, same y]
    · by_cases hclose : c = '*' ∧ d = '/'
      · obtain ⟨rfl, rfl⟩ := hclose
        rw [blockComment] at h
        by_cases hd : depth ≤ 1
        · rw [if_pos hd] at h
          rw [List.eq_nil_of_length_eq_zero (by omega : a.length = 0)]
          refine ⟨List.suffix_refl _, fun y => ?_⟩
          rw [blockComment, if_pos hd]
          rfl
        · rw [if_neg hd] at h
          have inner : blockComment (depth - 1) (a ++ x) = a.length := by omega
          obtain ⟨ends, same⟩ := blockComment_exchange inner hx
          refine ⟨ends.trans ⟨['*', '/'], rfl⟩, fun y => ?_⟩
          rw [blockComment, if_neg hd, same y]
      · rw [blockComment_cons hopen hclose, ← List.cons_append] at h
        obtain ⟨ends, same⟩ := blockComment_exchange (Nat.add_right_cancel h) hx
        refine ⟨ends.trans (List.suffix_cons c _), fun y => ?_⟩
        rw [blockComment_cons hopen hclose, ← List.cons_append, same y]
        rfl

theorem rawRest?_eq (hashes body : Text) (hh : ∀ c ∈ hashes, c = '#') :
    rawRest? (hashes ++ '"' :: body) =
      some (hashes.length + 1 + through ('"' :: hashes) body) := by
  have all : ∀ c ∈ hashes, (c == '#') = true := fun c hc => by simp [hh c hc]
  have run : (hashes ++ '"' :: body).takeWhile (· == '#') = hashes := by
    rw [List.takeWhile_append_of_pos all]
    simp
  have rest : (hashes ++ '"' :: body).dropWhile (· == '#') = '"' :: body := by
    rw [List.dropWhile_append_of_pos all]
    simp
  simp only [rawRest?, run, rest]

/-- A raw string is number signs, a quote, and text up to the same in reverse. -/
theorem exists_of_rawRest? (h : rawRest? (a ++ x) = some a.length) :
    ∃ hashes inner, a = hashes ++ '"' :: inner ∧ (∀ c ∈ hashes, c = '#') ∧
      through ('"' :: hashes) (inner ++ x) = inner.length := by
  obtain ⟨hashes, body, hsplit, hh⟩ : ∃ hashes body, a ++ x = hashes ++ '"' :: body ∧
      ∀ c ∈ hashes, c = '#' := by
    unfold rawRest? at h
    simp only at h
    split at h
    · rename_i body hbody
      refine ⟨_, body, by rw [← hbody, List.takeWhile_append_dropWhile], fun c hc => ?_⟩
      simpa using List.mem_takeWhile_imp hc
    · cases h
  rw [hsplit, rawRest?_eq hashes body hh, Option.some.injEq] at h
  have short : (hashes ++ ['"']).length ≤ a.length := by simp; omega
  have start : hashes ++ ['"'] <+: a :=
    List.prefix_of_prefix_length_le ⟨body, by simp⟩ (hsplit ▸ List.prefix_append a x) short
  obtain ⟨inner, rfl⟩ := start
  obtain rfl : body = inner ++ x := by simpa using hsplit.symm
  refine ⟨hashes, inner, by simp, hh, ?_⟩
  simp only [List.length_append, List.length_cons, List.length_nil] at h
  omega

theorem rawRest?_exchange (h : rawRest? (a ++ x) = some a.length) (hx : x ≠ []) (y : Text) :
    rawRest? (a ++ y) = some a.length := by
  obtain ⟨hashes, inner, rfl, hh, inside⟩ := exists_of_rawRest? h
  have close := (through_exchange (by simp) inside hx).2 y
  rw [List.append_assoc, List.cons_append, rawRest?_eq hashes _ hh, close]
  simp
  omega

/-- Whether a raw string starts is settled by the first character that is no number sign. -/
theorem rawRest?_eq_none_exchange (ha : ∃ c ∈ a, c ≠ '#') (h : rawRest? (a ++ x) = none)
    (y : Text) : rawRest? (a ++ y) = none := by
  have stops : (a.dropWhile (· == '#')).isEmpty = false := by
    rw [Bool.eq_false_iff, Ne, List.isEmpty_iff, List.dropWhile_eq_nil_iff]
    intro all
    obtain ⟨c, hc, hne⟩ := ha
    exact hne (by simpa using all c hc)
  unfold rawRest? at h ⊢
  simp only [List.dropWhile_append, stops, Bool.false_eq_true, ↓reduceIte] at h ⊢
  cases hd : a.dropWhile (· == '#') with
  | nil => simp [hd] at stops
  | cons c rest =>
    rw [hd] at h
    simp only [List.cons_append] at h ⊢
    split
    · rename_i he
      obtain ⟨rfl, rfl⟩ := List.cons.inj he
      cases h
    · rfl

theorem charRest?_cons {c : Char} (hc : c ≠ '\\') (t : Text) :
    charRest? (c :: t) = if t.head? = some '\'' then some 2 else none := by
  unfold charRest?
  split
  · rename_i h
    exact absurd (List.cons.inj h).1 hc
  · rename_i h
    exact absurd (List.cons.inj h).1 hc
  · rename_i h
    rw [(List.cons.inj h).2]
    rfl
  · rename_i hne
    rw [if_neg]
    intro hh
    obtain ⟨rest, rfl⟩ := List.head?_eq_some_iff.mp hh
    exact hne c rest rfl

/-- A character literal is a character or an escape, and a quote. -/
theorem exists_of_charRest? (h : charRest? (a ++ x) = some a.length) :
    (∃ c, c ≠ '\\' ∧ a = [c, '\'']) ∨
      ∃ e b, e.toNat < 128 ∧ '\'' ∉ b ∧ a = '\\' :: e :: (b ++ ['\'']) := by
  match a with
  | [] =>
    rw [List.nil_append] at h
    unfold charRest? at h
    split at h
    · split at h <;> simp at h
    all_goals simp at h
  | c :: a =>
    by_cases hc : c = '\\'
    · subst hc
      cases a with
      | nil =>
        unfold charRest? at h
        split at h
        · split at h <;> simp at h
        all_goals simp_all
      | cons e a =>
        simp only [List.cons_append, charRest?] at h
        split at h
        · rename_i hescape
          simp only [Option.some.injEq, List.length_cons] at h
          -- The closing quote is the last character of the literal.
          have closed : '\'' ∈ a := by
            by_contra hn
            have all : ∀ d ∈ a, (d != '\'') = true := fun d hd => by
              simpa using fun hq : d = '\'' => hn (hq ▸ hd)
            rw [List.takeWhile_append_of_pos all, List.length_append] at h
            omega
          obtain ⟨b, z, rfl, hb⟩ := List.eq_append_cons_of_mem closed
          have all : ∀ d ∈ b, (d != '\'') = true := fun d hd => by
            simpa using fun hq : d = '\'' => hb (hq ▸ hd)
          have stops : (b ++ '\'' :: z ++ x).takeWhile (· != '\'') = b := by
            rw [List.append_assoc, List.takeWhile_append_of_pos all]
            simp
          rw [stops, List.length_append, List.length_cons] at h
          rw [List.eq_nil_of_length_eq_zero (by omega : z.length = 0)]
          exact .inr ⟨e, b, hescape.1, hb, rfl⟩
        · cases h
    · rw [List.cons_append, charRest?_cons hc] at h
      cases a with
      | nil => split at h <;> simp at h
      | cons d a =>
        have quote : d = '\'' ∧ a = [] := by
          split at h
          · rename_i hd
            simp only [Option.some.injEq, List.length_cons] at h
            exact ⟨by simpa using hd, List.eq_nil_of_length_eq_zero (by omega)⟩
          · cases h
        exact .inl ⟨c, hc, by rw [quote.1, quote.2]⟩

theorem charRest?_exchange (h : charRest? (a ++ x) = some a.length) (y : Text) :
    charRest? (a ++ y) = some a.length := by
  rcases exists_of_charRest? h with ⟨c, hc, rfl⟩ | ⟨e, b, he, hb, rfl⟩
  · simp [charRest?_cons hc]
  · have all : ∀ d ∈ b, (d != '\'') = true := fun d hd => by
      simpa using fun hq : d = '\'' => hb (hq ▸ hd)
    have stops : (b ++ '\'' :: y).takeWhile (· != '\'') = b := by
      rw [List.takeWhile_append_of_pos all]
      simp
    simp only [List.cons_append, List.append_assoc, List.nil_append, charRest?, stops]
    rw [if_pos ⟨he, by simp⟩]
    simp
    omega

theorem charRest?_eq_none_exchange (ha : a.head? ≠ some '\\') (hne : a ≠ [])
    (h : charRest? (a ++ x) = none) (hy : y.head? ≠ some '\'') : charRest? (a ++ y) = none := by
  cases a with
  | nil => exact absurd rfl hne
  | cons c a =>
    have hc : c ≠ '\\' := by simpa using ha
    rw [List.cons_append, charRest?_cons hc] at h ⊢
    cases a with
    | nil => rw [List.nil_append, if_neg hy]
    | cons d a => simpa using h

theorem eq_length_of_take {n : Nat} (h : (a ++ x).take n = a) (hx : x ≠ []) : n = a.length := by
  have positive : 0 < x.length := List.length_pos_iff.mpr hx
  have lengths := congrArg List.length h
  simp only [List.length_take, List.length_append] at lengths
  omega

/-- The forms of a literal in front of more text. -/
theorem literal?_cases (h : literal? before (c :: (a ++ x)) = some p) (hp : p.text = c :: a)
    (hx : x ≠ []) :
    (c = '"' ∧ stringRest false (a ++ x) = a.length ∧ p = .literal '"' (c :: a)) ∨
      (c = '\'' ∧ charRest? (a ++ x) = some a.length ∧ p = .literal '\'' (c :: a)) ∨
      ∃ b, (c :: a = 'r' :: b ∨ c :: a = 'b' :: 'r' :: b) ∧ before.any continuesName = false ∧
        rawRest? (b ++ x) = some b.length ∧ p = .literal '"' (c :: a) := by
  have taken {q : Char} {n : Nat} (hlit : p = .literal q ((c :: a ++ x).take n)) :
      n = a.length + 1 ∧ p = .literal q (c :: a) := by
    subst hlit
    have whole : (c :: a ++ x).take n = c :: a := hp
    exact ⟨eq_length_of_take whole hx, by rw [whole]⟩
  unfold literal? at h
  split at h
  · rename_i heq
    obtain ⟨rfl, rfl⟩ := List.cons.inj heq
    obtain ⟨hn, rfl⟩ := taken (Option.some.inj h).symm
    exact .inl ⟨rfl, Nat.add_right_cancel hn, rfl⟩
  · rename_i heq
    obtain ⟨rfl, rfl⟩ := List.cons.inj heq
    obtain ⟨n, hn, he⟩ := Option.map_eq_some_iff.mp h
    obtain ⟨hlen, rfl⟩ := taken he.symm
    rw [Nat.add_right_cancel hlen] at hn
    exact .inr (.inl ⟨rfl, hn, rfl⟩)
  · rename_i heq
    obtain ⟨rfl, rfl⟩ := List.cons.inj heq
    split at h
    · cases h
    · rename_i hb
      obtain ⟨n, hn, he⟩ := Option.map_eq_some_iff.mp h
      obtain ⟨hlen, rfl⟩ := taken he.symm
      rw [Nat.add_right_cancel hlen] at hn
      exact .inr (.inr ⟨a, .inl rfl, by simpa using hb, hn, rfl⟩)
  · rename_i heq
    obtain ⟨rfl, hrest⟩ := List.cons.inj heq
    split at h
    · cases h
    · rename_i hb
      obtain ⟨n, hn, he⟩ := Option.map_eq_some_iff.mp h
      obtain ⟨hlen, rfl⟩ := taken he.symm
      cases a with
      | nil => simp at hlen
      | cons d a =>
        obtain ⟨rfl, rfl⟩ := List.cons.inj hrest
        have length : n = a.length := Nat.add_right_cancel hlen
        rw [length] at hn
        exact .inr (.inr ⟨a, .inr rfl, by simpa using hb, hn, rfl⟩)
  · cases h

/-- A literal stays the same if something else stands behind it. -/
theorem literal?_exchange (h : literal? before (c :: (a ++ x)) = some p) (hp : p.text = c :: a)
    (hx : x ≠ []) (y : Text) : literal? before (c :: (a ++ y)) = some p := by
  have taken : (c :: (a ++ y)).take (a.length + 1) = c :: a := by simp
  rcases literal?_cases h hp hx with ⟨rfl, hn, rfl⟩ | ⟨rfl, hn, rfl⟩ | ⟨b, hb, hbefore, hn, rfl⟩
  · rw [literal?, (stringRest_exchange hn hx).2, taken]
  · rw [literal?, charRest?_exchange hn, Option.map_some, taken]
  · have name : ¬ before.any continuesName = true := by simp [hbefore]
    rcases hb with hb | hb
    · obtain ⟨rfl, rfl⟩ := List.cons.inj hb
      simp only [literal?, if_neg name]
      rw [rawRest?_exchange hn hx, Option.map_some, taken]
    · cases hb
      simp only [List.cons_append, literal?, if_neg name]
      rw [rawRest?_exchange hn hx, Option.map_some]
      exact congrArg (fun t => some (Piece.literal '"' t)) taken

/-- What is no literal does not become one if something else stands behind it. -/
theorem literal?_eq_none_exchange (h : literal? before (c :: (a ++ x)) = none)
    (ha : ∃ d ∈ a, d ≠ 'r' ∧ d ≠ '#') (hquote : c = '\'' → a.head? ≠ some '\\')
    (hy : y.head? ≠ some '\'') : literal? before (c :: (a ++ y)) = none := by
  have hne : a ≠ [] := by
    rintro rfl
    simp at ha
  unfold literal? at h ⊢
  split
  · rename_i heq
    obtain ⟨rfl, rfl⟩ := List.cons.inj heq
    cases h
  · rename_i heq
    obtain ⟨rfl, rfl⟩ := List.cons.inj heq
    have none : charRest? (a ++ x) = none := by simpa using h
    rw [charRest?_eq_none_exchange (hquote rfl) hne none hy]
    rfl
  · rename_i heq
    obtain ⟨rfl, rfl⟩ := List.cons.inj heq
    split
    · rfl
    · rename_i hb
      have none : rawRest? (a ++ x) = none := by simpa [hb] using h
      have other : ∃ d ∈ a, d ≠ '#' := ha.imp fun d hd => ⟨hd.1, hd.2.2⟩
      rw [rawRest?_eq_none_exchange other none]
      rfl
  · rename_i heq
    obtain ⟨rfl, hrest⟩ := List.cons.inj heq
    split
    · rfl
    · rename_i hb
      cases a with
      | nil => exact absurd rfl hne
      | cons d a =>
        obtain ⟨rfl, rfl⟩ := List.cons.inj hrest
        have none : rawRest? (a ++ x) = none := by simpa [hb] using h
        have other : ∃ d ∈ a, d ≠ '#' := by
          obtain ⟨d, hd, hr, hh⟩ := ha
          exact ⟨d, (List.mem_cons.mp hd).resolve_left hr, hh⟩
        change Option.map _ (rawRest? (a ++ y)) = _
        rw [rawRest?_eq_none_exchange other none]
        rfl
  · rfl

theorem comment?_eq_none_iff : comment? (c :: cs) = none ↔
    ¬(c = '/' ∧ (cs.head? = some '/' ∨ cs.head? = some '*')) := by
  unfold comment?
  split
  · rename_i heq
    obtain ⟨rfl, rfl⟩ := List.cons.inj heq
    simp
  · rename_i heq
    obtain ⟨rfl, rfl⟩ := List.cons.inj heq
    simp
  · rename_i hline hblock
    simp only [true_iff]
    rintro ⟨rfl, hd | hd⟩
    · obtain ⟨rest, rfl⟩ := List.head?_eq_some_iff.mp hd
      exact hline rest rfl
    · obtain ⟨rest, rfl⟩ := List.head?_eq_some_iff.mp hd
      exact hblock rest rfl

/-- Whether a comment ends with a bracket of its own. -/
def Piece.IsBlock : Piece → Prop
  | comment t => ("/*" : Text) <+: t
  | _ => False

theorem takeWhile_exchange (h : (a ++ x).takeWhile (· != '\n') = a) (hx : x ≠ [])
    (hy : y.head? = x.head?) : (a ++ y).takeWhile (· != '\n') = a := by
  have all : ∀ d ∈ a, (d != '\n') = true := fun d hd => by
    rw [← h] at hd
    exact List.mem_takeWhile_imp (p := (· != '\n')) hd
  rw [List.takeWhile_append_of_pos all] at h ⊢
  obtain ⟨d, x, rfl⟩ := List.exists_cons_of_ne_nil hx
  obtain ⟨y, rfl⟩ := List.head?_eq_some_iff.mp hy
  have stops : (d != '\n') = false := by
    by_contra hd
    rw [List.takeWhile_cons_of_pos (by simpa using hd)] at h
    simp at h
  rw [List.takeWhile_cons_of_neg (by simp [stops]), List.append_nil]

/-- The forms of a comment in front of more text. -/
theorem comment?_cases (h : comment? (c :: (a ++ x)) = some p) (hp : p.text = c :: a)
    (hx : x ≠ []) : p = .comment (c :: a) ∧
      ((∃ b, c :: a = '/' :: '/' :: b ∧ (c :: a ++ x).takeWhile (· != '\n') = c :: a) ∨
        ∃ b, c :: a = '/' :: '*' :: b ∧ blockComment 0 (c :: a ++ x) = (c :: a).length) := by
  have second {d : Char} {r : Text} (heq : c :: (a ++ x) = '/' :: d :: r) (ha : a ≠ []) :
      ∃ b, c :: a = '/' :: d :: b := by
    obtain ⟨e, b, rfl⟩ := List.exists_cons_of_ne_nil ha
    cases heq
    exact ⟨b, rfl⟩
  unfold comment? at h
  split at h
  · rename_i heq
    cases h
    have line : (c :: a ++ x).takeWhile (· != '\n') = c :: a := hp
    refine ⟨by rw [← line]; rfl, .inl ?_⟩
    obtain ⟨b, hb⟩ := second heq (by rintro rfl; rw [heq] at hp; simp [Piece.text] at hp)
    exact ⟨b, hb, line⟩
  · rename_i heq
    cases h
    have block : (c :: a ++ x).take (blockComment 0 (c :: a ++ x)) = c :: a := hp
    refine ⟨congrArg Piece.comment block, .inr ?_⟩
    have ha : a ≠ [] := by
      rintro rfl
      rw [heq] at hp
      simp [Piece.text, blockComment] at hp
    obtain ⟨b, hb⟩ := second heq ha
    exact ⟨b, hb, eq_length_of_take block hx⟩
  · cases h

/-- A comment stays the same if something else stands behind it. Behind one that runs to the end of
its line the line has to end. -/
theorem comment?_exchange (h : comment? (c :: (a ++ x)) = some p) (hp : p.text = c :: a)
    (hx : x ≠ []) (hy : y.head? = x.head? ∨ p.IsBlock) : comment? (c :: (a ++ y)) = some p := by
  obtain ⟨rfl, ⟨b, hb, line⟩ | ⟨b, hb, block⟩⟩ := comment?_cases h hp hx
  · have ends : y.head? = x.head? := by
      refine hy.resolve_right fun hblock => ?_
      have start : ("/*" : Text) <+: c :: a := hblock
      rw [hb] at start
      simp at start
    have same := takeWhile_exchange line hx ends
    cases hb
    exact congrArg (fun t => some (Piece.comment t)) same
  · have same := (blockComment_exchange block hx).2 y
    have taken : (c :: a ++ y).take (blockComment 0 (c :: a ++ y)) = c :: a := by
      rw [same, List.take_left]
    cases hb
    exact congrArg (fun t => some (Piece.comment t)) taken

theorem first_cases (before : Option Char) (c : Char) (cs : Text) :
    comment? (c :: cs) = some (first before c cs) ∨
      comment? (c :: cs) = none ∧ literal? before (c :: cs) = some (first before c cs) ∨
        comment? (c :: cs) = none ∧ literal? before (c :: cs) = none ∧
          first before c cs = .plain c := by
  unfold first
  cases hc : comment? (c :: cs) with
  | some p => exact .inl rfl
  | none =>
    cases hl : literal? before (c :: cs) with
    | some p => exact .inr (.inl ⟨rfl, rfl⟩)
    | none => exact .inr (.inr ⟨rfl, rfl, rfl⟩)

theorem exists_comment_of_comment? {t : Text} (h : comment? t = some p) : ∃ s, p = .comment s := by
  unfold comment? at h
  split at h
  · exact ⟨_, (Option.some.inj h).symm⟩
  · exact ⟨_, (Option.some.inj h).symm⟩
  · cases h

theorem exists_literal_of_literal? {t : Text} (h : literal? before t = some p) :
    ∃ q ∈ ['"', '\''], ∃ s, p = .literal q s := by
  have raw {q : Char} (hq : q ∈ ['"', '\'']) {n : Option Nat} {f : Nat → Text}
      (hn : n.map (fun n => Piece.literal q (f n)) = some p) :
        ∃ q ∈ ['"', '\''], ∃ s, p = .literal q s := by
    obtain ⟨n, -, he⟩ := Option.map_eq_some_iff.mp hn
    exact ⟨q, hq, _, he.symm⟩
  unfold literal? at h
  split at h
  · exact ⟨'"', by decide, _, (Option.some.inj h).symm⟩
  · exact raw (by decide) h
  · split at h
    · cases h
    · exact raw (by decide) h
  · split at h
    · cases h
    · exact raw (by decide) h
  · cases h

theorem first_of_comment (h : comment? (c :: cs) = some p) : first before c cs = p := by
  rw [first, h]
  rfl

theorem first_of_literal (hc : comment? (c :: cs) = none) (h : literal? before (c :: cs) = some p) :
    first before c cs = p := by
  rw [first, hc, h]
  rfl

theorem first_of_none (hc : comment? (c :: cs) = none) (h : literal? before (c :: cs) = none) :
    first before c cs = .plain c := by
  rw [first, hc, h]
  rfl

theorem ne_slash_of_literal? (h : literal? before (c :: cs) = some p) : c ≠ '/' := by
  rintro rfl
  simp [literal?] at h

/-- A piece in front of another one stays the same if something else stands behind it. -/
theorem first_exchange (h : first before c (a ++ x) = p) (hp : p.text = c :: a)
    (hplain : p ≠ .plain c) (hx : x ≠ []) (hy : y.head? = x.head? ∨ p.IsBlock) :
    first before c (a ++ y) = p := by
  rcases first_cases before c (a ++ x) with hc | ⟨-, hl⟩ | ⟨-, -, he⟩
  · rw [h] at hc
    exact first_of_comment (comment?_exchange hc hp hx hy)
  · rw [h] at hl
    have none : comment? (c :: (a ++ y)) = none :=
      comment?_eq_none_iff.mpr fun hn => ne_slash_of_literal? hl hn.1
    exact first_of_literal none (literal?_exchange hl hp hx y)
  · exact absurd (h.symm.trans he) hplain

/-- A character of code stays one if something else stands behind the text that follows it. -/
theorem first_plain_exchange (h : first before c (a ++ x) = .plain c)
    (ha : ∃ d ∈ a, d ≠ 'r' ∧ d ≠ '#') (hquote : c = '\'' → a.head? ≠ some '\\')
    (hy : y.head? ≠ some '\'') : first before c (a ++ y) = .plain c := by
  have nonliteral : ∀ p, literal? before (c :: (a ++ x)) = some p → p ≠ .plain c := by
    rintro p hp rfl
    unfold literal? at hp
    split at hp
    · cases hp
    · simp at hp
    · split at hp <;> simp at hp
    · split at hp <;> simp at hp
    · cases hp
  have noncomment : ∀ p, comment? (c :: (a ++ x)) = some p → p ≠ .plain c := by
    rintro p hp rfl
    unfold comment? at hp
    split at hp <;> cases hp
  rcases first_cases before c (a ++ x) with hc | ⟨-, hl⟩ | ⟨hc, hl, -⟩
  · exact absurd h (noncomment _ hc)
  · exact absurd h (nonliteral _ hl)
  · refine first_of_none ?_ (literal?_eq_none_exchange hl ha hquote hy)
    obtain ⟨d, hd, -⟩ := ha
    obtain ⟨e, a, rfl⟩ := List.exists_cons_of_ne_nil (List.ne_nil_of_mem hd)
    rw [comment?_eq_none_iff] at hc ⊢
    exact hc

/-- Whether the text behind a piece can be exchanged for any other. -/
def Piece.Seals : Piece → Prop
  | plain c => c ∉ ['/', '\'', '"', 'r', 'b', '#']
  | p => p.IsBlock

instance (p : Piece) : Decidable p.Seals :=
  match p with
  | .plain c => inferInstanceAs (Decidable (c ∉ ['/', '\'', '"', 'r', 'b', '#']))
  | .literal _ _ => isFalse id
  | .comment t => inferInstanceAs (Decidable (("/*" : Text) <+: t))

theorem first_of_seals (hc : (Piece.plain c).Seals) (cs : Text) :
    first before c cs = .plain c := by
  simp only [Piece.Seals, List.mem_cons, List.not_mem_nil, or_false, not_or] at hc
  obtain ⟨hslash, hsingle, hdouble, hr, hb, -⟩ := hc
  refine first_of_none (comment?_eq_none_iff.mpr fun h => hslash h.1) ?_
  unfold literal?
  split
  · exact absurd (List.cons.inj ‹_›).1 hdouble
  · exact absurd (List.cons.inj ‹_›).1 hsingle
  · exact absurd (List.cons.inj ‹_›).1 hr
  · exact absurd (List.cons.inj ‹_›).1 hb
  · rfl

theorem Piece.Seals.exists_mem_text (h : p.Seals) : ∃ d ∈ p.text, d ≠ 'r' ∧ d ≠ '#' := by
  cases p with
  | plain c =>
    simp only [Seals, List.mem_cons, List.not_mem_nil, or_false, not_or] at h
    exact ⟨c, List.mem_singleton.mpr rfl, h.2.2.2.1, h.2.2.2.2.2⟩
  | literal q t => exact absurd h id
  | comment t => exact ⟨'/', h.subset (by decide), by decide⟩

/-- Whether no quote in front of a backslash is a character of code. -/
def NoLooseQuote (ps : List Piece) : Prop := ¬ [Piece.plain '\'', .plain '\\'] <:+: ps

instance (ps : List Piece) : Decidable (NoLooseQuote ps) :=
  inferInstanceAs (Decidable (¬ [Piece.plain '\'', .plain '\\'] <:+: ps))

/-- Pieces of which the last seals the others are cut in front of any other text. -/
theorem IsCut.exchange (h : IsCut before (ps ++ [p]) x) (hp : p.Seals)
    (hq : NoLooseQuote (ps ++ [p])) (hx : x ≠ []) (hy : y.head? ≠ some '\'') :
    IsCut before (ps ++ [p]) y := by
  induction ps generalizing before with
  | nil =>
    obtain ⟨⟨c, cs, hc, hfirst⟩, -⟩ := h
    refine ⟨⟨c, cs, hc, ?_⟩, trivial⟩
    simp only [List.nil_append, textOf_nil] at hfirst ⊢
    cases p with
    | plain d =>
      obtain ⟨rfl, rfl⟩ := List.cons.inj hc
      exact first_of_seals hp _
    | literal q t => exact absurd hp id
    | comment t => exact first_exchange hfirst hc (by simp) hx (.inr hp)
  | cons q ps ih =>
    have h : IsCut before (q :: (ps ++ [p])) x := h
    obtain ⟨⟨c, cs, hc, hfirst⟩, htail⟩ := h
    have rest := ih htail fun hin => hq (hin.trans (List.suffix_cons _ _).isInfix)
    obtain ⟨d, hd, hne⟩ := hp.exists_mem_text
    have firm : ∃ d ∈ textOf (ps ++ [p]), d ≠ 'r' ∧ d ≠ '#' := ⟨d, by simp [hd], hne⟩
    obtain ⟨e, t, he⟩ : ∃ e t, textOf (ps ++ [p]) = e :: t :=
      List.exists_cons_of_ne_nil (List.ne_nil_of_mem (firm.choose_spec.1))
    change IsCut before (q :: (ps ++ [p])) y
    refine ⟨⟨c, cs, hc, ?_⟩, rest⟩
    by_cases hplain : q = .plain c
    · subst hplain
      obtain ⟨-, rfl⟩ := List.cons.inj hc
      change first before c (textOf (ps ++ [p]) ++ y) = _
      refine first_plain_exchange hfirst firm ?_ hy
      rintro rfl hback
      obtain ⟨q, qs, hqs⟩ := List.exists_cons_of_ne_nil (show ps ++ [p] ≠ [] by simp)
      rw [hqs] at htail hback
      rw [List.cons_append, hqs] at hq
      obtain ⟨⟨f, u, hu, hnext⟩, -⟩ := htail
      rw [textOf_cons, hu, List.cons_append, List.head?_cons, Option.some.injEq] at hback
      rw [hback, first_of_seals (by decide)] at hnext
      exact hq ⟨[], qs, by rw [← hnext]; rfl⟩
    · refine first_exchange hfirst hc hplain (by simp [he]) (.inl ?_)
      rw [he]
      rfl

/-! ## The end of a piece -/

/-- Whether the text ends like a literal, or like a comment with a bracket of its own. -/
def EndsPiece (t : Text) : Prop := ∃ d ∈ ['"', '\'', '#', '/'], [d] <:+ t

theorem EndsPiece.of_suffix (h : EndsPiece a) (hs : a <:+ x) : EndsPiece x := by
  obtain ⟨d, hd, hsuffix⟩ := h
  exact ⟨d, hd, hsuffix.trans hs⟩

theorem endsPiece_of_rawRest? (h : rawRest? (a ++ x) = some a.length) (hx : x ≠ []) :
    EndsPiece a := by
  obtain ⟨hashes, inner, rfl, hh, inside⟩ := exists_of_rawRest? h
  have ends : '"' :: hashes <:+ hashes ++ '"' :: inner :=
    ((through_exchange (by simp) inside hx).1.trans (List.suffix_cons _ _)).trans
      (List.suffix_append _ _)
  rcases List.eq_nil_or_concat hashes with rfl | ⟨init, d, rfl⟩
  · exact ⟨'"', by decide, ends⟩
  · refine ⟨d, ?_, List.IsSuffix.trans ⟨'"' :: init, by simp⟩ ends⟩
    rw [hh d (by simp)]
    decide

/-- A literal in front of more text ends with a quote or a number sign. -/
theorem endsPiece_of_literal? (h : literal? before (c :: (a ++ x)) = some p) (hp : p.text = c :: a)
    (hx : x ≠ []) : EndsPiece (c :: a) := by
  rcases literal?_cases h hp hx with ⟨-, hn, -⟩ | ⟨-, hn, -⟩ | ⟨b, hb, -, hn, -⟩
  · exact .of_suffix ⟨'"', by decide, (stringRest_exchange hn hx).1⟩ (List.suffix_cons c a)
  · rcases exists_of_charRest? hn with ⟨d, -, rfl⟩ | ⟨e, b, -, -, rfl⟩
    · exact ⟨'\'', by decide, [c, d], rfl⟩
    · exact ⟨'\'', by decide, c :: '\\' :: e :: b, rfl⟩
  · have ends := endsPiece_of_rawRest? hn hx
    rcases hb with hb | hb
    · exact hb ▸ ends.of_suffix ⟨['r'], rfl⟩
    · exact hb ▸ ends.of_suffix ⟨['b', 'r'], rfl⟩

/-- A comment in front of more text ends with its bracket, or with its line. -/
theorem endsPiece_of_comment? (h : comment? (c :: (a ++ x)) = some p) (hp : p.text = c :: a)
    (hx : x ≠ []) : EndsPiece (c :: a) ∨ (x.head? = some '\n' ∧ '\n' ∉ c :: a) := by
  obtain ⟨-, ⟨b, -, line⟩ | ⟨b, -, block⟩⟩ := comment?_cases h hp hx
  · right
    have all : ∀ d ∈ c :: a, (d != '\n') = true := fun d hd => by
      rw [← line] at hd
      exact List.mem_takeWhile_imp (p := (· != '\n')) hd
    refine ⟨?_, fun hm => by simpa using all _ hm⟩
    obtain ⟨d, x, rfl⟩ := List.exists_cons_of_ne_nil hx
    rw [List.takeWhile_append_of_pos all] at line
    by_contra hd
    rw [List.takeWhile_cons_of_pos (by simpa using hd)] at line
    simp at line
  · exact .inl (.of_suffix ⟨'/', by decide, ['*'], rfl⟩ (blockComment_exchange block hx).1)

end SchemaDrift.Code
