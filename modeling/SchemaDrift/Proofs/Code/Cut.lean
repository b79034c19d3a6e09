import SchemaDrift.Code.Piece

namespace SchemaDrift.Code

/-!
# Cutting a part of a text

A text is cut into pieces from left to right. Between two pieces it can be taken apart: each part is
cut into its own pieces, but a piece can depend on what stands behind it.
-/

variable {before : Option Char} {c : Char} {cs rest : Text} {p : Piece} {ps qs : List Piece}

/-- An element of two joined lists is in the first or in the second one. -/
theorem append_eq_append_cons_cases {α : Type} {x y u z : List α} {c : α}
    (h : x ++ y = u ++ c :: z) :
    (∃ k, x = u ++ c :: k ∧ z = k ++ y) ∨ ∃ k, u = x ++ k ∧ y = k ++ c :: z := by
  rcases List.append_eq_append_iff.mp h with ⟨k, rfl, hk⟩ | ⟨k, rfl, hk⟩
  · exact .inr ⟨k, rfl, hk⟩
  · cases k with
    | nil => exact .inr ⟨[], by simp, by simpa using hk.symm⟩
    | cons d k =>
      obtain ⟨rfl, rfl⟩ := List.cons.inj hk
      exact .inl ⟨k, rfl, rfl⟩

/-- The text of some pieces. -/
def textOf (ps : List Piece) : Text := ps.flatMap Piece.text

@[simp] theorem textOf_nil : textOf [] = [] := rfl

@[simp] theorem textOf_cons (p : Piece) (ps : List Piece) :
    textOf (p :: ps) = p.text ++ textOf ps := rfl

@[simp] theorem textOf_append (ps qs : List Piece) : textOf (ps ++ qs) = textOf ps ++ textOf qs :=
  List.flatMap_append

/-- The character before what follows a text. -/
def lastOf (before : Option Char) (t : Text) : Option Char := t.getLast?.or before

@[simp] theorem lastOf_nil : lastOf before [] = before := rfl

@[simp] theorem lastOf_append (a b : Text) :
    lastOf before (a ++ b) = lastOf (lastOf before a) b := by
  simp only [lastOf, List.getLast?_append, Option.or_assoc]

@[simp] theorem lastOf_cons : lastOf before (c :: cs) = lastOf (some c) cs := by
  cases h : cs.getLast? <;> simp [lastOf, List.getLast?_cons, h]

/-- Whether the text of the pieces is cut into them in front of `rest`. -/
def IsCut (before : Option Char) : List Piece → Text → Prop
  | [], _ => True
  | p :: ps, rest =>
    (∃ c cs, p.text = c :: cs ∧ first before c (cs ++ (textOf ps ++ rest)) = p) ∧
      IsCut (lastOf before p.text) ps rest

theorem pieces_length (a b : Text) :
    pieces a.length before (a ++ b) = pieces 0 (lastOf before a) b := by
  induction a generalizing before with
  | nil => rfl
  | cons c a ih =>
    rw [lastOf_cons, ← ih]
    rfl

/-- The first piece of a text is a part of it. -/
theorem exists_text_eq (h : first before c cs = p) :
    ∃ tail rest, p.text = c :: tail ∧ cs = tail ++ rest := by
  obtain ⟨n, hn⟩ := exists_text_first before c cs
  rw [h, List.take_succ_cons] at hn
  exact ⟨_, _, hn, (List.take_append_drop n cs).symm⟩

theorem pieces_cons {tail : Text} (h : first before c (tail ++ rest) = p)
    (hp : p.text = c :: tail) :
    pieces 0 before (p.text ++ rest) = p :: pieces 0 (lastOf before p.text) rest := by
  rw [hp, List.cons_append]
  simp only [pieces, h, hp, List.length_cons, Nat.add_sub_cancel]
  rw [pieces_length, lastOf_cons]

theorem pieces_textOf_append (h : IsCut before ps rest) :
    pieces 0 before (textOf ps ++ rest) = ps ++ pieces 0 (lastOf before (textOf ps)) rest := by
  induction ps generalizing before with
  | nil => rfl
  | cons p ps ih =>
    obtain ⟨⟨c, cs, hp, hfirst⟩, hps⟩ := h
    rw [textOf_cons, List.append_assoc, pieces_cons hfirst hp, ih hps, lastOf_append]
    rfl

/-- The pieces of a text are cut at every place between two of them. -/
theorem isCut_of_pieces {t : Text} (h : pieces 0 before t = ps ++ qs) :
    t = textOf ps ++ textOf qs ∧ IsCut before ps (textOf qs) ∧
      pieces 0 (lastOf before (textOf ps)) (textOf qs) = qs := by
  induction ps generalizing before t with
  | nil =>
    have whole : textOf qs = t := by
      rw [textOf, ← List.nil_append qs, ← h]
      exact flatMap_text_pieces_drop 0 before t
    refine ⟨whole.symm, trivial, ?_⟩
    rw [whole]
    exact h
  | cons p ps ih =>
    cases t with
    | nil => cases h
    | cons c cs =>
      obtain ⟨tail, rest, hp, rfl⟩ := exists_text_eq (rfl : first before c cs = _)
      have split := pieces_cons rfl hp
      rw [hp, List.cons_append] at split
      rw [split, List.cons_append] at h
      obtain ⟨rfl, htail⟩ := List.cons.inj h
      rw [← hp] at htail
      obtain ⟨rfl, hcut, hqs⟩ := ih htail
      refine ⟨?_, ⟨⟨c, tail, hp, rfl⟩, hcut⟩, ?_⟩
      · rw [textOf_cons, hp]
        simp
      · rw [textOf_cons, lastOf_append]
        exact hqs

theorem isCut_append_iff : IsCut before (ps ++ qs) rest ↔
    IsCut before ps (textOf qs ++ rest) ∧ IsCut (lastOf before (textOf ps)) qs rest := by
  induction ps generalizing before with
  | nil => simp [IsCut]
  | cons p ps ih =>
    simp only [List.cons_append, IsCut, ih, textOf_append, textOf_cons, lastOf_append,
      List.append_assoc, and_assoc]

end SchemaDrift.Code
