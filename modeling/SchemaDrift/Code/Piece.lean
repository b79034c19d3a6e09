import SchemaDrift.Text.Word

namespace SchemaDrift.Code

/-!
# Pieces of source code

A source file is cut into single characters of code, literals and comments. What stands inside a
literal or a comment is not structure. The pieces joined give the file back.
-/

/-- The number of characters of the rest of a string, with its closing quote. -/
def stringRest (escaped : Bool) : Text → Nat
  | [] => 0
  | c :: cs =>
    if escaped then stringRest false cs + 1
    else if c = '\\' then stringRest true cs + 1
    else if c = '"' then 1
    else stringRest false cs + 1

/-- The number of characters up to the end of a pattern, or of the whole text. -/
def through (pattern : Text) : Text → Nat
  | [] => 0
  | c :: cs =>
    if (Text.stripStart pattern (c :: cs)).isSome then pattern.length else through pattern cs + 1

/-- The number of characters of a raw string after its `r`: number signs, a quote, and everything up
to a quote with as many number signs. -/
def rawRest? (t : Text) : Option Nat :=
  let hashes := t.takeWhile (· == '#')
  match t.dropWhile (· == '#') with
  | '"' :: body => some (hashes.length + 1 + through ('"' :: hashes) body)
  | _ => none

/-- The number of characters of a character literal after its first quote. An escape has at least
two characters. Without a closing quote it is not a literal, but the start of a label. -/
def charRest? : Text → Option Nat
  | '\\' :: e :: rest =>
    if e.toNat < 128 ∧ rest.contains '\'' then
      some (2 + (rest.takeWhile (· != '\'')).length + 1)
    else none
  | '\\' :: [] => none
  | _ :: '\'' :: _ => some 2
  | _ => none

/-- The number of characters of a block comment, which ends when all comments in it have ended. -/
def blockComment (depth : Nat) : Text → Nat
  | '/' :: '*' :: cs => blockComment (depth + 1) cs + 2
  | '*' :: '/' :: cs => if depth ≤ 1 then 2 else blockComment (depth - 1) cs + 2
  | _ :: cs => blockComment depth cs + 1
  | [] => 0

/-- A character, a literal or a comment. -/
inductive Piece where
  | plain (c : Char)
  /-- A literal, which counts as one quote. -/
  | literal (quote : Char) (text : Text)
  | comment (text : Text)
  deriving DecidableEq, Repr

namespace Piece

def text : Piece → Text
  | plain c => [c]
  | literal _ t => t
  | comment t => t

/-- The character that stands for the piece in code; a comment has none. -/
def mark? : Piece → Option Char
  | plain c => some c
  | literal quote _ => some quote
  | comment _ => none

end Piece

/-- Whether the character continues a name, so that an `r` or `b` after it belongs to the name. -/
def continuesName (c : Char) : Bool := Text.isAlphanumeric c || c == '_'

/-- The literal at the start of a text, given the character before the text. -/
def literal? (before : Option Char) (t : Text) : Option Piece :=
  match t with
  | '"' :: cs => some (.literal '"' (t.take (stringRest false cs + 1)))
  | '\'' :: cs => (charRest? cs).map fun n => .literal '\'' (t.take (n + 1))
  | 'r' :: cs =>
    if before.any continuesName then none
    else (rawRest? cs).map fun n => .literal '"' (t.take (n + 1))
  | 'b' :: 'r' :: cs =>
    if before.any continuesName then none
    else (rawRest? cs).map fun n => .literal '"' (t.take (n + 2))
  | _ => none

def comment? (t : Text) : Option Piece :=
  match t with
  | '/' :: '/' :: _ => some (.comment (t.takeWhile (· != '\n')))
  | '/' :: '*' :: _ => some (.comment (t.take (blockComment 0 t)))
  | _ => none

/-- The piece at the start of a text that starts with `c`. -/
def first (before : Option Char) (c : Char) (cs : Text) : Piece :=
  ((comment? (c :: cs)).or (literal? before (c :: cs))).getD (.plain c)

/-- The pieces of a text after its first `skip` characters. -/
def pieces (skip : Nat) (before : Option Char) : Text → List Piece
  | [] => []
  | c :: cs =>
    match skip with
    | skip + 1 => pieces skip (some c) cs
    | 0 =>
      let piece := first before c cs
      piece :: pieces (piece.text.length - 1) (some c) cs

theorem exists_text_literal? {before : Option Char} {c : Char} {cs : Text} {p : Piece}
    (h : literal? before (c :: cs) = some p) : ∃ n, p.text = (c :: cs).take (n + 1) := by
  unfold literal? at h
  split at h
  · rename_i heq
    cases h
    exact ⟨_, rfl⟩
  · obtain ⟨n, _, rfl⟩ := Option.map_eq_some_iff.mp h
    exact ⟨n, rfl⟩
  · split at h
    · cases h
    · obtain ⟨n, _, rfl⟩ := Option.map_eq_some_iff.mp h
      exact ⟨n, rfl⟩
  · split at h
    · cases h
    · obtain ⟨n, _, rfl⟩ := Option.map_eq_some_iff.mp h
      exact ⟨n + 1, rfl⟩
  · cases h

theorem exists_text_comment? {c : Char} {cs : Text} {p : Piece}
    (h : comment? (c :: cs) = some p) : ∃ n, p.text = (c :: cs).take (n + 1) := by
  unfold comment? at h
  split at h
  · rename_i rest heq
    cases h
    obtain ⟨rfl, rfl⟩ := List.cons.inj heq
    refine ⟨(rest.takeWhile (· != '\n')).length + 1, ?_⟩
    have := List.prefix_iff_eq_take.mp (List.takeWhile_prefix (p := (· != '\n')) (l := rest))
    simpa [Piece.text] using this
  · rename_i rest heq
    cases h
    obtain ⟨rfl, rfl⟩ := List.cons.inj heq
    exact ⟨blockComment 1 rest + 1, rfl⟩
  · cases h

/-- A piece is a part of the text with at least one character. -/
theorem exists_text_first (before : Option Char) (c : Char) (cs : Text) :
    ∃ n, (first before c cs).text = (c :: cs).take (n + 1) := by
  unfold first
  cases hc : comment? (c :: cs) with
  | some p => exact exists_text_comment? hc
  | none =>
    cases hl : literal? before (c :: cs) with
    | some p => exact exists_text_literal? hl
    | none => exact ⟨0, by simp [Piece.text]⟩

theorem flatMap_text_pieces_drop (skip : Nat) (before : Option Char) (t : Text) :
    (pieces skip before t).flatMap Piece.text = t.drop skip := by
  induction t generalizing skip before with
  | nil => simp [pieces]
  | cons c cs ih =>
    cases skip with
    | succ n => simp [pieces, ih]
    | zero =>
      obtain ⟨n, hn⟩ := exists_text_first before c cs
      simp only [pieces, List.flatMap_cons, ih, List.drop_zero]
      rw [hn, List.take_succ_cons]
      simp only [List.length_cons, Nat.add_sub_cancel, List.length_take, List.cons_append,
        List.cons.injEq, true_and]
      rcases Nat.le_total n cs.length with h | h
      · rw [Nat.min_eq_left h, List.take_append_drop]
      · rw [Nat.min_eq_right h, List.take_of_length_le h, List.drop_length, List.append_nil]

/-- The pieces joined give the text back. -/
theorem flatMap_text_pieces (t : Text) : (pieces 0 none t).flatMap Piece.text = t :=
  flatMap_text_pieces_drop 0 none t

end SchemaDrift.Code
