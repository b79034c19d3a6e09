import Mathlib.Data.List.Induction
import SchemaDrift.Proofs.Code.Exchange
import SchemaDrift.Text.Blank
import SchemaDrift.Proofs.Text.Escape

namespace SchemaDrift.Code

/-!
# Runs of code

Some texts are cut in the same way wherever they stand: runs of code without quotes and slashes,
quoted literals, comments with the end of their line, and blanks.
-/

variable {before : Option Char} {c : Char} {t u w rest : Text} {p : Piece} {ps qs : List Piece}

/-- Whether the text of the pieces is cut into them wherever it stands. -/
def Cuts (ps : List Piece) : Prop := ∀ before rest, IsCut before ps rest

theorem cuts_nil : Cuts [] := fun _ _ => trivial

theorem Cuts.append (hp : Cuts ps) (hq : Cuts qs) : Cuts (ps ++ qs) := fun _ _ =>
  isCut_append_iff.mpr ⟨hp _ _, hq _ _⟩

theorem Cuts.pieces_append (h : Cuts ps) (before : Option Char) (rest : Text) :
    pieces 0 before (textOf ps ++ rest) = ps ++ pieces 0 (lastOf before (textOf ps)) rest :=
  pieces_textOf_append (h before rest)

/-- The pieces of a text that is all code. -/
def plains (t : Text) : List Piece := t.map .plain

@[simp] theorem plains_nil : plains [] = [] := rfl

@[simp] theorem plains_cons (c : Char) (t : Text) : plains (c :: t) = .plain c :: plains t := rfl

@[simp] theorem plains_append (a b : Text) : plains (a ++ b) = plains a ++ plains b :=
  List.map_append

@[simp] theorem textOf_plains (t : Text) : textOf (plains t) = t := by
  induction t with
  | nil => rfl
  | cons c t ih => rw [plains_cons, textOf_cons, ih]; rfl

theorem cuts_plains_of_seals (h : ∀ c ∈ t, (Piece.plain c).Seals) : Cuts (plains t) := by
  induction t with
  | nil => exact cuts_nil
  | cons c t ih =>
    obtain ⟨hc, ht⟩ := List.forall_mem_cons.mp h
    exact fun before rest => ⟨⟨c, [], rfl, first_of_seals hc _⟩, ih ht _ _⟩

theorem rawRest?_eq_none (hc : c ≠ '"' ∧ c ≠ '#') (t : Text) : rawRest? (c :: t) = none := by
  have stops : (c == '#') = false := by simpa using hc.2
  unfold rawRest?
  simp only [List.dropWhile_cons, stops, Bool.false_eq_true, ↓reduceIte]
  split
  · exact absurd (List.cons.inj ‹_›).1 hc.1
  · rfl

/-- A run of code is cut into its characters, if it has no quotes, slashes and number signs and no
letter at its end that can start a literal. -/
theorem cuts_plains (h : ∀ c ∈ t, c ∉ ['/', '\'', '"', '#'])
    (hlast : ∀ c ∈ t.getLast?, c ≠ 'r' ∧ c ≠ 'b') : Cuts (plains t) := by
  induction t with
  | nil => exact cuts_nil
  | cons c t ih =>
    obtain ⟨hc, ht⟩ := List.forall_mem_cons.mp h
    have plainChar : ∀ d ∈ t, d ≠ '"' ∧ d ≠ '#' := fun d hd => by
      have other : ¬ (d = '"' ∨ d = '#') := fun he => ht d hd (by simp [he])
      simpa using other
    simp only [List.mem_cons, List.not_mem_nil, or_false, not_or] at hc
    obtain ⟨hslash, hsingle, hdouble, hhash⟩ := hc
    have rest : Cuts (plains t) := ih ht fun d hd =>
      hlast d (by simp [List.getLast?_cons, Option.mem_def.mp hd])
    refine fun before after => ⟨⟨c, [], rfl, ?_⟩, rest _ _⟩
    change first before c (textOf (plains t) ++ after) = _
    rw [textOf_plains]
    by_cases hr : c = 'r'
    · subst hr
      cases t with
      | nil => exact absurd rfl (hlast 'r' rfl).1
      | cons d t =>
        have raw := rawRest?_eq_none (plainChar d List.mem_cons_self) (t ++ after)
        exact first_of_none (comment?_eq_none_iff.mpr (by simp)) (by simp [literal?, raw])
    · by_cases hb : c = 'b'
      · subst hb
        cases t with
        | nil => exact absurd rfl (hlast 'b' rfl).2
        | cons d t =>
          refine first_of_none (comment?_eq_none_iff.mpr (by simp)) ?_
          by_cases hd : d = 'r'
          · subst hd
            cases t with
            | nil => exact absurd rfl (hlast 'r' rfl).1
            | cons e t =>
              have raw := rawRest?_eq_none (plainChar e (by simp)) (t ++ after)
              simp [literal?, raw]
          · unfold literal?
            split
            all_goals simp_all
      · exact first_of_seals (by simp [Piece.Seals, *]) _

theorem seals_of_isBlank (h : Text.isBlank c = true) : (Piece.plain c).Seals := by
  intro hm
  revert h
  revert c
  decide

/-- Blanks are cut into single characters. -/
theorem cuts_blanks (h : ∀ c ∈ t, Text.isBlank c = true) : Cuts (plains t) :=
  cuts_plains_of_seals fun c hc => seals_of_isBlank (h c hc)

/-- A comment is cut off with the end of its line. -/
theorem cuts_comment (h : '\n' ∉ t) : Cuts [.comment ("//" ++ t), .plain '\n'] := by
  intro before rest
  refine ⟨⟨'/', '/' :: t, rfl, ?_⟩, ⟨'\n', [], rfl, first_of_seals (by decide) _⟩, trivial⟩
  have line : ('/' :: '/' :: (t ++ '\n' :: rest)).takeWhile (· != '\n') = '/' :: '/' :: t := by
    have all : ∀ d ∈ '/' :: '/' :: t, (d != '\n') = true := by
      intro d hd
      simp only [List.mem_cons] at hd
      rcases hd with rfl | rfl | hd
      · decide
      · decide
      · simpa using fun he : d = '\n' => h (he ▸ hd)
    rw [← List.cons_append, ← List.cons_append, List.takeWhile_append_of_pos all]
    simp
  refine first_of_comment ?_
  exact congrArg (fun t => some (Piece.comment t)) line

theorem stringRest_append_of_forall (h : ∀ c ∈ t, c ≠ '\\' ∧ c ≠ '"') (rest : Text) :
    stringRest false (t ++ rest) = t.length + stringRest false rest := by
  induction t with
  | nil => simp
  | cons c t ih =>
    obtain ⟨⟨hback, hquote⟩, ht⟩ := List.forall_mem_cons.mp h
    rw [List.cons_append, stringRest, if_neg (by simp), if_neg hback, if_neg hquote, ih ht,
      List.length_cons]
    omega

theorem stringRest_backslash (c : Char) (rest : Text) :
    stringRest false ('\\' :: c :: rest) = 2 + stringRest false rest := by
  simp [stringRest]
  omega

theorem stringRest_escape (c : Char) (rest : Text) :
    stringRest false (Text.escape c ++ rest) = (Text.escape c).length + stringRest false rest := by
  rcases Text.escape_cases c with ⟨he, hc⟩ | ⟨d, tail, he, -, -, htail⟩
  · rw [he]
    exact stringRest_append_of_forall (by simpa using hc.symm) rest
  · rw [he, List.cons_append, List.cons_append, stringRest_backslash,
      stringRest_append_of_forall fun x hx => (htail x hx).symm]
    simp only [List.length_cons]
    omega

theorem stringRest_flatMap_escape (t rest : Text) :
    stringRest false (t.flatMap Text.escape ++ rest) =
      (t.flatMap Text.escape).length + stringRest false rest := by
  induction t with
  | nil => simp
  | cons c t ih =>
    rw [List.flatMap_cons, List.append_assoc, stringRest_escape, ih, List.length_append]
    omega

/-- A quoted text is cut off as a literal. -/
theorem cuts_quote (t : Text) : Cuts [.literal '"' (Text.quote t)] := by
  intro before rest
  refine ⟨⟨'"', t.flatMap Text.escape ++ ['"'], rfl, ?_⟩, trivial⟩
  have length : stringRest false (t.flatMap Text.escape ++ ['"'] ++ rest) + 1 =
      (Text.quote t).length := by
    rw [List.append_assoc, stringRest_flatMap_escape]
    simp [stringRest, Text.quote]
  have taken : ('"' :: (t.flatMap Text.escape ++ ['"'] ++ rest)).take (Text.quote t).length =
      Text.quote t := List.take_left
  refine first_of_literal (comment?_eq_none_iff.mpr (by simp)) ?_
  rw [literal?]
  simp only [textOf_nil, List.nil_append]
  rw [length, taken]

/-! ## Lines -/

/-- What the last piece in front of more text can end with. -/
theorem last_cases (h : IsCut before (ps ++ [p]) rest) (hr : rest ≠ []) :
    (∃ c, p = .plain c) ∨ EndsPiece p.text ∨
      (rest.head? = some '\n' ∧ '\n' ∉ p.text ∧ '/' ∈ p.text) := by
  obtain ⟨-, ⟨c, cs, hc, hfirst⟩, -⟩ := isCut_append_iff.mp h
  rw [textOf_nil, List.nil_append] at hfirst
  rcases first_cases _ c (cs ++ rest) with hcomment | ⟨-, hliteral⟩ | ⟨-, -, hplain⟩
  · rw [hfirst] at hcomment
    rcases endsPiece_of_comment? hcomment hc hr with ends | ⟨hline, hn⟩
    · exact .inr (.inl (hc ▸ ends))
    · refine .inr (.inr ⟨hline, hc ▸ hn, ?_⟩)
      obtain ⟨-, ⟨b, hb, -⟩ | ⟨b, hb, -⟩⟩ := comment?_cases hcomment hc hr
      · exact hc ▸ hb ▸ List.mem_cons_self
      · exact hc ▸ hb ▸ List.mem_cons_self
  · rw [hfirst] at hliteral
    exact .inr (.inl (hc ▸ endsPiece_of_literal? hliteral hc hr))
  · exact .inl ⟨c, hfirst.symm.trans hplain⟩

theorem not_endsPiece_of_isBlank (h : Text.isBlank c = true) : ¬ EndsPiece (t ++ [c]) := by
  rintro ⟨d, hd, u, hu⟩
  obtain ⟨-, he⟩ := List.append_inj' hu rfl
  rw [← List.singleton_inj.mp he] at h
  have none : ∀ d ∈ ['"', '\'', '#', '/'], Text.isBlank d = false := by decide
  rw [none d hd] at h
  cases h

/-- A blank in front of more text is a piece of its own, unless it can end a comment. -/
theorem exists_of_blank (h : IsCut before ps rest) (hr : rest ≠ []) (ht : textOf ps = t ++ [c])
    (hc : Text.isBlank c = true) (hline : ∀ s, s <:+ t ++ [c] → '\n' ∉ s → '/' ∉ s) :
    ∃ qs, ps = qs ++ [.plain c] ∧ textOf qs = t := by
  rcases List.eq_nil_or_concat ps with rfl | ⟨qs, p, rfl⟩
  · simp at ht
  · rw [List.concat_eq_append] at *
    have split : textOf qs ++ p.text = t ++ [c] := by simpa using ht
    have suffix : p.text <:+ t ++ [c] := ⟨_, split⟩
    rcases last_cases h hr with ⟨d, rfl⟩ | ends | ⟨-, hn, hslash⟩
    · obtain ⟨hq, hd⟩ := List.append_inj' split rfl
      exact ⟨qs, by rw [List.singleton_inj.mp hd], hq⟩
    · exact absurd (ends.of_suffix suffix) (not_endsPiece_of_isBlank hc)
    · exact absurd hslash (hline _ suffix hn)

/-- The blanks of a line in front of more text are pieces of their own, and so is the end of the
line above. -/
theorem exists_of_line (h : IsCut before ps rest) (hr : rest ≠ []) (ht : textOf ps = u ++ '\n' :: w)
    (hw : ∀ c ∈ w, Text.isBlank c = true) :
    ∃ qs, ps = qs ++ plains ('\n' :: w) ∧ textOf qs = u := by
  induction w using List.reverseRecOn generalizing ps rest with
  | nil =>
    refine exists_of_blank h hr ht (by decide) fun s hs hn => ?_
    rcases List.eq_nil_or_concat s with rfl | ⟨s, d, rfl⟩
    · simp
    · rw [List.concat_eq_append] at *
      obtain ⟨v, hv⟩ := hs
      have last := congrArg List.getLast? hv
      simp only [← List.append_assoc, List.getLast?_append, List.getLast?_singleton,
        Option.some_or, Option.some.injEq] at last
      exact absurd (by simp [last]) hn
  | append_singleton w c ih =>
    have blanks : ∀ d ∈ w, Text.isBlank d = true := fun d hd => hw d (by simp [hd])
    obtain ⟨qs, rfl, hqs⟩ := exists_of_blank (t := u ++ '\n' :: w) h hr (by simpa using ht)
      (hw c (by simp)) fun s hs hn hslash => by
        -- A part of the text without a newline lies in the blanks at its end.
        have line : '\n' :: (w ++ [c]) <:+ u ++ '\n' :: w ++ [c] := ⟨u, by simp⟩
        have inside : s <:+ w ++ [c] := by
          rcases List.suffix_or_suffix_of_suffix hs line with hin | hin
          · exact (List.suffix_cons_iff.mp hin).resolve_left fun he => hn (by simp [he])
          · exact absurd (hin.subset List.mem_cons_self) hn
        exact absurd (hw '/' (inside.subset hslash)) (by decide)
    obtain ⟨qs, rfl, hu⟩ := ih (isCut_append_iff.mp h).1 (by simp [Piece.text]) hqs blanks
    exact ⟨qs, by simp, hu⟩

end SchemaDrift.Code
