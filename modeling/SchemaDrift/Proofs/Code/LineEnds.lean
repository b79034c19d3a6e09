import SchemaDrift.Proofs.Code.Lines
import SchemaDrift.Proofs.Text.Ends

namespace SchemaDrift.Code

/-!
# Ends of lines

A text can be cut into lines piece by piece if every cut stands at the end of a line. The end of the
line of a place is such a cut.
-/

variable {t a b m : Text} {p q : Nat}

/-! ## Spans -/

theorem take_append_slice (h : p ≤ q) : t.take p ++ Text.slice t p q = t.take q := by
  have upTo := List.take_append_drop p (t.take q)
  rwa [List.take_take, Nat.min_eq_left h] at upTo

theorem slice_append_drop (h : p ≤ q) : Text.slice t p q ++ t.drop q = t.drop p := by
  have whole := List.take_append_drop q t
  rw [← take_append_slice h, List.append_assoc] at whole
  exact List.append_cancel_left (whole.trans (List.take_append_drop p t).symm)

theorem slice_append_slice {r : Nat} (hpq : p ≤ q) (hqr : q ≤ r) :
    Text.slice t p q ++ Text.slice t q r = Text.slice t p r := by
  have upTo := take_append_slice (t := t) (hpq.trans hqr)
  rw [← take_append_slice hqr, ← take_append_slice hpq, List.append_assoc] at upTo
  exact (List.append_cancel_left upTo).symm

theorem exists_cut_at (h : p ≤ q) (hq : q ≤ t.length) :
    ∃ a m b, t = a ++ (m ++ b) ∧ a.length = p ∧ (a ++ m).length = q := by
  refine ⟨t.take p, Text.slice t p q, t.drop q, ?_, List.length_take_of_le (h.trans hq), ?_⟩
  · rw [slice_append_drop h, List.take_append_drop]
  · rw [take_append_slice h, List.length_take_of_le hq]

/-! ## Cuts between lines -/

/-- Whether a line ends between the two texts. The last line ends with the text. -/
def Breaks (a b : Text) : Prop := BeginsLine a ∨ b = []

theorem Breaks.of_append (h : Breaks (a ++ m) b) : Breaks m b := by
  refine h.imp_left fun h => ?_
  cases m with
  | nil => nofun
  | cons c m => exact (beginsLine_append (by simp)).mp h

theorem Breaks.left (h : Breaks a (m ++ b)) : Breaks a m :=
  h.imp_right fun h => (List.append_eq_nil_iff.mp h).1

theorem lines_newline_append (u b : Text) :
    Text.lines (u ++ '\n' :: b) = Text.lines (u ++ ['\n']) ++ Text.lines b := by
  induction u with
  | nil => rfl
  | cons c u ih =>
    rw [List.cons_append, List.cons_append, Text.lines, Text.lines, ih]
    split
    · rfl
    · cases hl : Text.lines (u ++ ['\n']) with
      | nil =>
        have whole := Text.flatten_lines (u ++ ['\n'])
        rw [hl] at whole
        simp at whole
      | cons l ls => rfl

theorem lines_of_breaks (h : Breaks a b) :
    Text.lines (a ++ b) = Text.lines a ++ Text.lines b := by
  rcases h with h | rfl
  · rcases h.cases with rfl | ⟨u, rfl⟩
    · rfl
    · rw [List.append_assoc]
      exact lines_newline_append u b
  · rw [List.append_nil, Text.lines, List.append_nil]

theorem lines_drop (hpq : p ≤ q) (h : Breaks (t.take q) (t.drop q)) :
    Text.lines (t.drop p) = Text.lines (Text.slice t p q) ++ Text.lines (t.drop q) := by
  rw [← take_append_slice hpq] at h
  rw [← slice_append_drop hpq, lines_of_breaks h.of_append]

theorem lines_slice {r : Nat} (hpq : p ≤ q) (hqr : q ≤ r) (h : Breaks (t.take q) (t.drop q)) :
    Text.lines (Text.slice t p r) =
      Text.lines (Text.slice t p q) ++ Text.lines (Text.slice t q r) := by
  rw [← take_append_slice hpq, ← slice_append_drop hqr] at h
  rw [← slice_append_slice hpq hqr, lines_of_breaks h.of_append.left]

/-! ## The end of a line -/

theorem lineEnd_of_not_mem (h : '\n' ∉ b) (a : Text) :
    lineEnd (a ++ b) a.length = (a ++ b).length := by
  rw [lineEnd]
  simp only [List.drop_left, takeWhile_of_not_mem h, Nat.lt_irrefl, if_false]

theorem lineEnd_cases {place : Nat} (h : place ≤ t.length) :
    lineEnd t place = t.length ∨ ∃ w z, t = t.take place ++ (w ++ '\n' :: z) ∧
      lineEnd t place = place + w.length + 1 := by
  rcases first_line (t.drop place) with hn | ⟨w, z, hsplit, hw⟩
  · left
    have stop := lineEnd_of_not_mem hn (t.take place)
    rwa [List.take_append_drop, List.length_take_of_le h] at stop
  · right
    have whole : t = t.take place ++ (w ++ '\n' :: z) := by rw [← hsplit, List.take_append_drop]
    refine ⟨w, z, whole, ?_⟩
    have stop := lineEnd_append hw (t.take place) z
    rwa [← whole, List.length_take_of_le h] at stop

theorem breaks_lineEnd (h : p ≤ t.length) :
    Breaks (t.take (lineEnd t p)) (t.drop (lineEnd t p)) := by
  rcases lineEnd_cases h with hlast | ⟨w, z, hsplit, hlast⟩
  · exact .inr (by rw [hlast, List.drop_length])
  · have whole : t = (t.take p ++ w ++ ['\n']) ++ z := by
      conv_lhs => rw [hsplit]
      simp
    have place : lineEnd t p = (t.take p ++ w ++ ['\n']).length := by
      rw [hlast, List.length_append, List.length_append, List.length_take_of_le h]
      rfl
    have begins := beginsLine_newline (t.take p ++ w)
    generalize t.take p ++ w ++ ['\n'] = line at whole place begins
    rw [place, whole, List.take_left]
    exact .inl begins

theorem lineEnd_le_length (t : Text) (h : p ≤ t.length) : lineEnd t p ≤ t.length := by
  rcases lineEnd_cases h with hlast | ⟨w, z, hsplit, hlast⟩
  · exact hlast.le
  · have whole := congrArg List.length hsplit
    simp only [List.length_append, List.length_cons, List.length_take_of_le h] at whole
    omega

theorem le_lineEnd (h : p ≤ t.length) : p ≤ lineEnd t p := by
  rcases lineEnd_cases h with hlast | ⟨w, z, -, hlast⟩ <;> omega

theorem lineEnd_append_of_not_mem (hm : '\n' ∉ m) :
    lineEnd (a ++ (m ++ b)) (a ++ m).length = lineEnd (a ++ (m ++ b)) a.length := by
  rcases first_line b with hb | ⟨w, z, rfl, hw⟩
  · have behind := lineEnd_of_not_mem hb (a ++ m)
    rw [List.append_assoc] at behind
    rw [behind, lineEnd_of_not_mem (by simp [hm, hb])]
  · have behind := lineEnd_append hw (a ++ m) z
    have front := lineEnd_append (w := m ++ w) (by simp [hm, hw]) a z
    rw [List.append_assoc] at behind front
    rw [behind, front]
    simp only [List.length_append]
    omega

theorem lineEnd_succ {c : Char} (hc : t[p]? = some c) (hline : c ≠ '\n') :
    lineEnd t (p + 1) = lineEnd t p := by
  obtain ⟨hp, hget⟩ := List.getElem?_eq_some_iff.mp hc
  have whole : t = t.take p ++ ([c] ++ t.drop (p + 1)) := by
    rw [List.singleton_append, ← hget, List.getElem_cons_drop, List.take_append_drop]
  have place : (t.take p).length = p := List.length_take_of_le hp.le
  have same := lineEnd_append_of_not_mem (a := t.take p) (m := [c]) (b := t.drop (p + 1))
    (by simpa using hline.symm)
  rwa [← whole, List.length_append, place] at same

theorem lineEnd_mono (h : p ≤ q) (hp : p ≤ t.length) : lineEnd t p ≤ lineEnd t q := by
  rcases Nat.lt_or_ge t.length q with hq | hq
  · have last : lineEnd t q = t.length := by simp [lineEnd, List.drop_eq_nil_of_le hq.le]
    exact (lineEnd_le_length t hp).trans last.ge
  have beyond := le_lineEnd hq
  obtain ⟨a, m, b, rfl, rfl, rfl⟩ := exists_cut_at h hq
  rcases first_line m with hm | ⟨w, z, rfl, hw⟩
  · exact (lineEnd_append_of_not_mem hm).ge
  · have own := lineEnd_append hw a (z ++ b)
    have regroup : w ++ '\n' :: (z ++ b) = w ++ '\n' :: z ++ b := by simp
    rw [regroup] at own
    rw [own]
    refine le_trans ?_ beyond
    simp only [List.length_append, List.length_cons]
    omega

/-- Behind blanks up to the end of a line, code stands on another one. -/
theorem lineEnd_le_of_endsLine {c : Char} (h : endsLine t p = true) (hpq : p ≤ q)
    (hc : t[q]? = some c) (hblank : Text.isBlank c = false) : lineEnd t p ≤ q := by
  by_contra hlt
  have here : (Text.slice t p (lineEnd t p))[q - p]? = some c := by
    rw [Text.slice, List.getElem?_drop, Nat.add_sub_cancel' hpq,
      List.getElem?_take_of_lt (Nat.lt_of_not_le hlt), hc]
  have blank := List.all_eq_true.mp h c (List.mem_of_getElem? here)
  rw [hblank] at blank
  cases blank

/-- What is not blank stays in front of the blanks that are trimmed. -/
theorem lt_length_trimEnd {c : Char} (hpq : p < q) (hc : t[p]? = some c)
    (hblank : Text.isBlank c = false) : p < (Text.trimEnd (t.take q)).length := by
  obtain ⟨hp, hget⟩ := List.getElem?_eq_some_iff.mp hc
  have last : (t.take (p + 1)).getLast? = some c := by
    rw [List.take_succ_eq_append_getElem hp, List.getLast?_concat, hget]
  have trimmed := Text.trimEnd_append (a := t.take (p + 1))
    (fun hnil => by rw [hnil] at last; cases last)
    (fun d hd => by rw [last] at hd; exact Option.some.inj hd ▸ hblank) (Text.slice t (p + 1) q)
  rw [← take_append_slice hpq, trimmed, List.length_append, List.length_take_of_le hp]
  omega

/-! ## Lines that become comments -/

theorem getLast?_commentLine (l : Text) : (commentLine l).getLast? = l.getLast? := by
  rw [commentLine]
  split
  · rfl
  · rename_i hcode
    have filled : l.dropWhile Text.isIndent ≠ [] := fun hnil => hcode (by rw [hnil]; rfl)
    conv_rhs => rw [← List.takeWhile_append_dropWhile (p := Text.isIndent) (l := l)]
    rw [← List.append_assoc, List.getLast?_append_of_ne_nil _ filled,
      List.getLast?_append_of_ne_nil _ filled]

theorem getLast?_commentLines (ls : List Text) :
    (ls.map commentLine).flatten.getLast? = ls.flatten.getLast? := by
  induction ls with
  | nil => rfl
  | cons l ls ih =>
    rw [List.map_cons, List.flatten_cons, List.flatten_cons, List.getLast?_append,
      List.getLast?_append, ih, getLast?_commentLine]

theorem endLine_commentLines (indent marker : Text) {ls : List Text} (h : BeginsLine ls.flatten) :
    endLine (markerLine indent marker ++ ls.flatMap commentLine) =
      (markerLine indent marker :: ls.map commentLine).flatten := by
  have ends : (markerLine indent marker ++ (ls.map commentLine).flatten).getLast? = some '\n' := by
    have last : (markerLine indent marker).getLast? = some '\n' := List.getLast?_concat
    rw [List.getLast?_append, getLast?_commentLines, last]
    cases hl : ls.flatten.getLast? with
    | none => rfl
    | some c => rw [h c hl]; rfl
  rw [List.flatMap_def, endLine, if_pos ends, List.flatten_cons]

theorem commentOut?_eq_some_iff {t' marker : Text} {start stop : Nat} :
    commentOut? t start stop marker = some t' ↔
    startsLine t start = true ∧ endsLine t stop = true ∧
      t' = Text.replaceSpan t (lineStart t start) (lineEnd t stop)
        (endLine (markerLine (indentation t start) marker ++
          (Text.lines (Text.slice t (lineStart t start) (lineEnd t stop))).flatMap
            commentLine)) := by
  rw [commentOut?]
  split
  · rename_i both
    obtain ⟨hstarts, hends⟩ := Bool.and_eq_true_iff.mp both
    simp [hstarts, hends, eq_comm]
  · rename_i both
    rw [Bool.and_eq_true] at both
    exact iff_of_false (Option.some_ne_none t').symm fun h => both ⟨h.1, h.2.1⟩

end SchemaDrift.Code
