import SchemaDrift.Code.Line
import SchemaDrift.Proofs.Code.Part
import SchemaDrift.Proofs.Text.Trimmed

namespace SchemaDrift.Code

/-!
# Lines

A place lies on the line that the newlines around it bound. A span of whole lines that is turned
into a comment is a gap in the list that it stands in.
-/

variable {a b t u v w z indent marker : Text}

/-! ## The ends of a line -/

/-- A text is one line, or has a last line. -/
theorem last_line (t : Text) : '\n' ∉ t ∨ ∃ u v, t = u ++ '\n' :: v ∧ '\n' ∉ v := by
  by_cases h : '\n' ∈ t
  · obtain ⟨a, b, hsplit, ha⟩ := List.eq_append_cons_of_mem (List.mem_reverse.mpr h)
    refine .inr ⟨b.reverse, a.reverse, ?_, by simpa using ha⟩
    rw [← List.reverse_reverse t, hsplit]
    simp
  · exact .inl h

/-- A text is one line, or has a first line. -/
theorem first_line (t : Text) : '\n' ∉ t ∨ ∃ w z, t = w ++ '\n' :: z ∧ '\n' ∉ w := by
  by_cases h : '\n' ∈ t
  · obtain ⟨w, z, hsplit, hw⟩ := List.eq_append_cons_of_mem h
    exact .inr ⟨w, z, hsplit, hw⟩
  · exact .inl h

theorem takeWhile_line (h : '\n' ∉ w) (z : Text) :
    (w ++ '\n' :: z).takeWhile (· != '\n') = w := by
  have all : ∀ d ∈ w, (d != '\n') = true := fun d hd => by
    simpa using fun he : d = '\n' => h (he ▸ hd)
  rw [List.takeWhile_append_of_pos all]
  simp

theorem takeWhile_of_not_mem (h : '\n' ∉ w) : w.takeWhile (· != '\n') = w :=
  List.takeWhile_eq_self_iff.mpr fun d hd => by simpa using fun he : d = '\n' => h (he ▸ hd)

theorem lineStart_append (hv : '\n' ∉ v) (b : Text) :
    lineStart (u ++ '\n' :: v ++ b) (u ++ '\n' :: v).length = u.length + 1 := by
  have line : ((u ++ '\n' :: v).reverse).takeWhile (· != '\n') = v.reverse := by
    rw [List.reverse_append, List.reverse_cons, List.append_assoc]
    exact takeWhile_line (by simpa using hv) u.reverse
  rw [lineStart, List.take_left, line]
  simp only [List.length_append, List.length_cons, List.length_reverse]
  omega

theorem startsLine_append (hv : '\n' ∉ v) (b : Text) :
    startsLine (u ++ '\n' :: v ++ b) (u ++ '\n' :: v).length = Text.allBlank v := by
  have line : (u ++ '\n' :: v).drop (u.length + 1) = v := by
    rw [show u ++ '\n' :: v = (u ++ ['\n']) ++ v by simp,
      show u.length + 1 = (u ++ ['\n']).length by simp, List.drop_left]
  rw [startsLine, lineStart_append hv, Text.slice, List.take_left, line]

theorem lineEnd_append (hw : '\n' ∉ w) (a z : Text) :
    lineEnd (a ++ (w ++ '\n' :: z)) a.length = a.length + w.length + 1 := by
  rw [lineEnd]
  simp only [List.drop_left, takeWhile_line hw]
  rw [if_pos (by simp)]

theorem endsLine_append (hw : '\n' ∉ w) (a z : Text) :
    endsLine (a ++ (w ++ '\n' :: z)) a.length = Text.allBlank w := by
  have whole : a ++ (w ++ '\n' :: z) = a ++ ((w ++ ['\n']) ++ z) := by simp
  have last : a.length + w.length + 1 = (a ++ (w ++ ['\n'])).length := by simp [Nat.add_assoc]
  rw [endsLine, lineEnd_append hw, last, whole, Text.slice_append]
  simp [Text.allBlank]

/-- If only blanks precede a place on its line, the line is the first one or starts with them. -/
theorem exists_of_startsLine (h : startsLine (a ++ b) a.length = true) :
    (∀ c ∈ a, Text.isBlank c = true) ∨
      ∃ u v, a = u ++ '\n' :: v ∧ '\n' ∉ v ∧ ∀ c ∈ v, Text.isBlank c = true := by
  rcases last_line a with hn | ⟨u, v, rfl, hv⟩
  · left
    have line : a.reverse.takeWhile (· != '\n') = a.reverse :=
      takeWhile_of_not_mem (by simpa using hn)
    rw [startsLine, lineStart, List.take_left, line, List.length_reverse, Nat.sub_self, Text.slice,
      List.take_left, List.drop_zero] at h
    exact List.all_eq_true.mp h
  · rw [startsLine_append hv] at h
    exact .inr ⟨u, v, rfl, hv, List.all_eq_true.mp h⟩

/-- A place behind code of its line does not start the line. -/
theorem startsLine_eq_false {c : Char} (hc : Text.isBlank c = false) (hv : '\n' ∉ v) (b : Text) :
    startsLine (u ++ c :: v ++ b) (u ++ c :: v).length = false := by
  have visible {l : Text} (h : ∀ d ∈ l, Text.isBlank d = true) : c ∉ l := fun hm => by
    rw [h c hm] at hc
    cases hc
  by_contra hstarts
  rcases exists_of_startsLine (Bool.not_eq_false _ ▸ hstarts) with all | ⟨x, y, hsplit, -, hy⟩
  · exact visible all (by simp)
  · rcases List.append_eq_append_iff.mp hsplit with ⟨k, -, hk⟩ | ⟨k, -, hk⟩
    · cases k with
      | nil =>
        obtain ⟨rfl, -⟩ := List.cons.inj hk
        cases hc
      | cons d k =>
        obtain ⟨-, rfl⟩ := List.cons.inj hk
        exact hv (by simp)
    · have blanks : ∀ d ∈ '\n' :: y, Text.isBlank d = true :=
        List.forall_mem_cons.mpr ⟨by decide, hy⟩
      exact visible blanks (by rw [hk]; simp)

/-- If only blanks follow a place on its line, the line is the last one or ends with them. -/
theorem exists_of_endsLine (h : endsLine (a ++ b) a.length = true) :
    (∀ c ∈ b, Text.isBlank c = true) ∨
      ∃ w z, b = w ++ '\n' :: z ∧ '\n' ∉ w ∧ ∀ c ∈ w, Text.isBlank c = true := by
  rcases first_line b with hn | ⟨w, z, rfl, hw⟩
  · left
    rw [endsLine, lineEnd] at h
    simp only [List.drop_left, takeWhile_of_not_mem hn, Nat.lt_irrefl, if_false] at h
    rw [Text.slice, List.take_length, List.drop_left] at h
    exact List.all_eq_true.mp h
  · rw [endsLine_append hw] at h
    exact .inr ⟨w, z, rfl, hw, List.all_eq_true.mp h⟩

/-! ## Comments -/

theorem isBlank_of_isIndent {c : Char} (h : Text.isIndent c = true) : Text.isBlank c = true := by
  rw [Text.isIndent, Bool.or_eq_true, beq_iff_eq, beq_iff_eq] at h
  rcases h with rfl | rfl <;> decide

theorem isBlank_of_mem_indentation {c : Char} {place : Nat} (h : c ∈ indentation t place) :
    Text.isBlank c = true :=
  isBlank_of_isIndent (List.mem_takeWhile_imp (p := Text.isIndent) h)

/-- Whether a text is cut, wherever it stands, into blanks and comments, the last of which is the
end of a line. -/
def IsGapText (t : Text) : Prop :=
  ∃ gs, textOf (gs ++ [.plain '\n']) = t ∧ Cuts (gs ++ [.plain '\n']) ∧ ∀ g ∈ gs, IsGap g

theorem IsGapText.append (ha : IsGapText a) (hb : IsGapText b) : IsGapText (a ++ b) := by
  obtain ⟨gs, rfl, hcut, hgs⟩ := ha
  obtain ⟨hs, rfl, hcut', hhs⟩ := hb
  refine ⟨gs ++ [.plain '\n'] ++ hs, by simp, ?_, ?_⟩
  · simpa using hcut.append hcut'
  · intro g hg
    simp only [List.mem_append, List.mem_singleton] at hg
    rcases hg with (hg | rfl) | hg
    · exact hgs g hg
    · exact Text.isBlank_newline
    · exact hhs g hg

theorem isGapText_blanks (h : ∀ c ∈ t, Text.isBlank c = true) : IsGapText (t ++ ['\n']) := by
  refine ⟨plains t, by simp [Piece.text], ?_, ?_⟩
  · have all : ∀ c ∈ t ++ ['\n'], Text.isBlank c = true := by
      simpa [or_imp, forall_and] using h
    simpa using cuts_blanks all
  · intro g hg
    obtain ⟨c, hc, rfl⟩ := List.mem_map.mp hg
    exact h c hc

theorem isGapText_comment (hi : ∀ c ∈ indent, Text.isBlank c = true) (ht : '\n' ∉ t) :
    IsGapText (indent ++ ("//" ++ t ++ ['\n'])) := by
  refine ⟨plains indent ++ [.comment ("//" ++ t)], by simp [Piece.text], ?_, ?_⟩
  · rw [List.append_assoc]
    exact (cuts_blanks hi).append (cuts_comment ht)
  · intro g hg
    rcases List.mem_append.mp hg with hg | hg
    · obtain ⟨c, hc, rfl⟩ := List.mem_map.mp hg
      exact hi c hc
    · rw [List.mem_singleton.mp hg]
      trivial

theorem isGapText_markerLine (hi : ∀ c ∈ indent, Text.isBlank c = true) (hm : '\n' ∉ marker) :
    IsGapText (markerLine indent marker) := by
  have line := isGapText_comment (t := ' ' :: marker) hi (by simpa using hm)
  have form : markerLine indent marker = indent ++ ("//" ++ ' ' :: marker ++ ['\n']) := by
    simp [markerLine]
  rw [form]
  exact line

/-- A line that was turned into a comment. -/
theorem isGapText_commentLine (h : '\n' ∉ t) : IsGapText (commentLine (t ++ ['\n'])) := by
  have indents : ∀ c ∈ t.takeWhile Text.isIndent, Text.isBlank c = true := fun c hc =>
    isBlank_of_isIndent (List.mem_takeWhile_imp (p := Text.isIndent) hc)
  have code : (t ++ ['\n']).dropWhile Text.isIndent = t.dropWhile Text.isIndent ++ ['\n'] := by
    have stops : ['\n'].dropWhile Text.isIndent = ['\n'] := by decide
    rw [List.dropWhile_append, stops]
    split
    · rename_i hempty
      rw [List.isEmpty_iff.mp hempty, List.nil_append]
    · rfl
  have indent : (t ++ ['\n']).takeWhile Text.isIndent = t.takeWhile Text.isIndent := by
    have stops : ['\n'].takeWhile Text.isIndent = [] := by decide
    rw [List.takeWhile_append, stops, List.append_nil]
    split
    · rename_i hall
      exact ((List.takeWhile_prefix (p := Text.isIndent) (l := t)).eq_of_length hall).symm
    · rfl
  rw [commentLine]
  simp only [code, indent]
  split
  · rename_i hblank
    have blank : ∀ c ∈ t.dropWhile Text.isIndent, Text.isBlank c = true := fun c hc =>
      List.all_eq_true.mp hblank c (by simp [hc])
    refine isGapText_blanks fun c hc => ?_
    rw [← List.takeWhile_append_dropWhile (p := Text.isIndent) (l := t)] at hc
    exact (List.mem_append.mp hc).elim (indents c) (blank c)
  · have line : '\n' ∉ ' ' :: t.dropWhile Text.isIndent := by
      simpa using fun hm => h ((List.dropWhile_sublist _).subset hm)
    have comment := isGapText_comment indents line
    simpa using comment

/-- The lines of a text that ends with one. -/
theorem exists_of_mem_lines {l : Text} (h : l ∈ Text.lines (t ++ ['\n'])) :
    ∃ x, l = x ++ ['\n'] ∧ '\n' ∉ x := by
  induction t generalizing l with
  | nil =>
    have one : Text.lines ['\n'] = [['\n']] := by decide
    rw [List.nil_append, one, List.mem_singleton] at h
    exact ⟨[], by simp [h], by simp⟩
  | cons c t ih =>
    rw [List.cons_append, Text.lines] at h
    split at h
    · rcases List.mem_cons.mp h with rfl | h
      · exact ⟨[], rfl, by simp⟩
      · exact ih h
    · rename_i hc
      cases hl : Text.lines (t ++ ['\n']) with
      | nil =>
        have joined := Text.flatten_lines (t ++ ['\n'])
        rw [hl] at joined
        simp at joined
      | cons first rest =>
        rw [hl, Text.consHead] at h
        rcases List.mem_cons.mp h with rfl | h
        · obtain ⟨x, rfl, hx⟩ := ih (hl ▸ List.mem_cons_self)
          exact ⟨c :: x, rfl, by simpa [hx] using Ne.symm hc⟩
        · exact ih (hl ▸ List.mem_cons_of_mem _ h)

/-- Whole lines that were turned into a comment, with a marker above them. -/
theorem isGapText_commented (hi : ∀ c ∈ indent, Text.isBlank c = true) (hm : '\n' ∉ marker)
    (t : Text) : IsGapText (markerLine indent marker ++
      (Text.lines (t ++ ['\n'])).flatMap commentLine) := by
  have lines (ls : List Text) (hls : ∀ l ∈ ls, ∃ x, l = x ++ ['\n'] ∧ '\n' ∉ x) :
      ∀ front, IsGapText front → IsGapText (front ++ ls.flatMap commentLine) := by
    induction ls with
    | nil => simp
    | cons l ls ih =>
      obtain ⟨⟨x, rfl, hx⟩, hrest⟩ := List.forall_mem_cons.mp hls
      intro front hfront
      rw [List.flatMap_cons, ← List.append_assoc]
      exact ih hrest _ (hfront.append (isGapText_commentLine hx))
  exact lines _ (fun l hl => exists_of_mem_lines hl) _ (isGapText_markerLine hi hm)

theorem endLine_of_isGapText (h : IsGapText t) : endLine t = t := by
  obtain ⟨gs, rfl, -, -⟩ := h
  rw [endLine, if_pos (by simp [Piece.text])]

/-- What takes the place of a span of lines that is turned into comments. -/
def commented (indent marker t : Text) : Text :=
  markerLine indent marker ++ (Text.lines (t ++ ['\n'])).flatMap commentLine

theorem commentOut?_append {m : Text} (hv : '\n' ∉ v) (hw : '\n' ∉ w)
    (hvb : ∀ c ∈ v, Text.isBlank c = true) (hwb : ∀ c ∈ w, Text.isBlank c = true)
    (hm : '\n' ∉ marker) :
    ∃ indent, (∀ c ∈ indent, Text.isBlank c = true) ∧
      commentOut? (u ++ '\n' :: v ++ (m ++ (w ++ '\n' :: z))) (u ++ '\n' :: v).length
        (u ++ '\n' :: v ++ m).length marker =
          some (u ++ '\n' :: (commented indent marker (v ++ (m ++ w)) ++ z)) := by
  have starts := startsLine_append (u := u) hv (m ++ (w ++ '\n' :: z))
  have start := lineStart_append (u := u) hv (m ++ (w ++ '\n' :: z))
  have regroup : u ++ '\n' :: v ++ (m ++ (w ++ '\n' :: z)) =
      u ++ '\n' :: v ++ m ++ (w ++ '\n' :: z) := by simp
  have ends := endsLine_append hw (u ++ '\n' :: v ++ m) z
  have stop := lineEnd_append hw (u ++ '\n' :: v ++ m) z
  rw [← regroup] at ends stop
  have blanks : (Text.allBlank v && Text.allBlank w) = true := by
    rw [Bool.and_eq_true]
    exact ⟨List.all_eq_true.mpr hvb, List.all_eq_true.mpr hwb⟩
  -- The whole lines of the span.
  have whole : u ++ '\n' :: v ++ (m ++ (w ++ '\n' :: z)) =
      (u ++ ['\n']) ++ ((v ++ (m ++ w) ++ ['\n']) ++ z) := by simp
  have first : u.length + 1 = (u ++ ['\n']).length := by simp
  have last : (u ++ '\n' :: v ++ m).length + w.length + 1 =
      ((u ++ ['\n']) ++ (v ++ (m ++ w) ++ ['\n'])).length := by
    simp only [List.length_append, List.length_cons, List.length_nil]
    omega
  have blank : ∀ c ∈ indentation (u ++ '\n' :: v ++ (m ++ (w ++ '\n' :: z)))
      (u ++ '\n' :: v).length, Text.isBlank c = true := fun c hc => isBlank_of_mem_indentation hc
  refine ⟨_, blank, ?_⟩
  have gap := isGapText_commented blank hm (v ++ (m ++ w))
  rw [commentOut?, starts, ends, if_pos blanks]
  simp only [start, stop]
  rw [first, last, whole, Text.slice_append, Text.replaceSpan_append, ← whole,
    endLine_of_isGapText gap]
  simp [commented]

/-- A span that shares no line with other code is exchanged for comments, line by line. -/
theorem exists_of_commentOut? {m : Text} (h : commentOut? (a ++ (m ++ b)) a.length (a ++ m).length
    marker = some t) (hm : '\n' ∉ marker) (ha : ∃ c ∈ a, Text.isBlank c = false)
    (hb : ∃ c ∈ b, Text.isBlank c = false) :
    ∃ u v w z block, a = u ++ '\n' :: v ∧ b = w ++ '\n' :: z ∧
      (∀ c ∈ v, Text.isBlank c = true) ∧ (∀ c ∈ w, Text.isBlank c = true) ∧
      IsGapText block ∧ t = u ++ '\n' :: (block ++ z) := by
  have lines : startsLine (a ++ (m ++ b)) a.length = true ∧
      endsLine (a ++ m ++ b) (a ++ m).length = true := by
    rw [commentOut?] at h
    split at h
    · rename_i both
      rw [Bool.and_eq_true] at both
      rwa [List.append_assoc]
    · cases h
  obtain ⟨u, v, rfl, hv, hvb⟩ := (exists_of_startsLine lines.1).resolve_left fun all => by
    obtain ⟨c, hc, hn⟩ := ha
    rw [all c hc] at hn
    cases hn
  obtain ⟨w, z, rfl, hw, hwb⟩ := (exists_of_endsLine lines.2).resolve_left fun all => by
    obtain ⟨c, hc, hn⟩ := hb
    rw [all c hc] at hn
    cases hn
  obtain ⟨indent, hi, out⟩ := commentOut?_append (u := u) (z := z) (m := m) hv hw hvb hwb hm
  rw [h] at out
  exact ⟨u, v, w, z, _, rfl, rfl, hvb, hwb, isGapText_commented hi hm _, Option.some.inj out⟩

/-! ## The start of a line -/

/-- Whether a line begins behind the text. -/
def BeginsLine (t : Text) : Prop := ∀ c ∈ t.getLast?, c = '\n'

theorem beginsLine_append (hb : b ≠ []) : BeginsLine (a ++ b) ↔ BeginsLine b := by
  rcases List.eq_nil_or_concat b with rfl | ⟨init, c, rfl⟩
  · exact absurd rfl hb
  · rw [BeginsLine, BeginsLine, List.concat_eq_append, ← List.append_assoc, List.getLast?_concat,
      List.getLast?_concat]

theorem beginsLine_newline (t : Text) : BeginsLine (t ++ ['\n']) :=
  (beginsLine_append (by simp)).mpr (by simp [BeginsLine])

theorem BeginsLine.cases (h : BeginsLine t) : t = [] ∨ ∃ u, t = u ++ ['\n'] := by
  rcases List.eq_nil_or_concat t with rfl | ⟨u, c, rfl⟩
  · exact .inl rfl
  · rw [List.concat_eq_append, h c (by simp)]
    exact .inr ⟨u, rfl⟩

theorem lineStart_cases {place : Nat} (h : place ≤ t.length) :
    lineStart t place = 0 ∨
      ∃ u v, t.take place = u ++ '\n' :: v ∧ '\n' ∉ v ∧ lineStart t place = u.length + 1 := by
  have length : (t.take place).length = place := List.length_take_of_le h
  rcases last_line (t.take place) with hn | ⟨u, v, hsplit, hv⟩
  · left
    rw [lineStart, takeWhile_of_not_mem (by simpa using hn), List.length_reverse, length,
      Nat.sub_self]
  · right
    refine ⟨u, v, hsplit, hv, ?_⟩
    have start := lineStart_append (u := u) hv (t.drop place)
    rwa [← hsplit, List.take_append_drop, length] at start

theorem lineStart_le (t : Text) (place : Nat) : lineStart t place ≤ place := Nat.sub_le _ _

theorem beginsLine_take_lineStart {place : Nat} (h : place ≤ t.length) :
    BeginsLine (t.take (lineStart t place)) := by
  rcases lineStart_cases h with hzero | ⟨u, v, hsplit, -, hstart⟩
  · rw [hzero]
    nofun
  · have front : t.take (lineStart t place) = u ++ ['\n'] := by
      have le := lineStart_le t place
      rw [hstart] at le ⊢
      rw [← Nat.min_eq_left le, ← List.take_take, hsplit,
        show u ++ '\n' :: v = (u ++ ['\n']) ++ v by simp,
        show u.length + 1 = (u ++ ['\n']).length by simp, List.take_left]
    rw [front]
    exact beginsLine_newline u

/-- What stands before the blanks of a line and is not blank stands above the line. -/
theorem lt_lineStart {place k : Nat} {d : Char} (h : startsLine t place = true)
    (hle : place ≤ t.length) (hk : k < place) (hd : t[k]? = some d)
    (hb : Text.isBlank d = false) : k + 1 < lineStart t place := by
  have length : (t.take place).length = place := List.length_take_of_le hle
  have here : (t.take place)[k]? = some d := by rwa [List.getElem?_take_of_lt hk]
  have notBlank : ¬ ∀ c ∈ t.take place, Text.isBlank c = true := fun all => by
    rw [all d (List.mem_of_getElem? here)] at hb
    cases hb
  have starts : startsLine (t.take place ++ t.drop place) (t.take place).length = true := by
    rwa [List.take_append_drop, length]
  obtain ⟨u, v, hsplit, hv, hblank⟩ := (exists_of_startsLine starts).resolve_left notBlank
  have start := lineStart_append (u := u) hv (t.drop place)
  rw [← hsplit, List.take_append_drop, length] at start
  rw [start, Nat.add_lt_add_iff_right]
  by_contra hge
  rw [hsplit, List.getElem?_append_right (Nat.not_lt.mp hge)] at here
  rcases List.mem_cons.mp (List.mem_of_getElem? here) with rfl | hm
  · cases hb
  · rw [hblank d hm] at hb
    cases hb

theorem lines_append (hw : '\n' ∉ w) (z : Text) :
    Text.lines (w ++ '\n' :: z) = (w ++ ['\n']) :: Text.lines z := by
  induction w with
  | nil => rfl
  | cons c w ih =>
    rw [List.mem_cons, not_or] at hw
    rw [List.cons_append, Text.lines, if_neg (Ne.symm hw.1), ih hw.2]
    rfl

theorem lines_of_not_mem (hw : '\n' ∉ w) (hne : w ≠ []) : Text.lines w = [w] := by
  induction w with
  | nil => exact absurd rfl hne
  | cons c w ih =>
    rw [List.mem_cons, not_or] at hw
    rw [Text.lines, if_neg (Ne.symm hw.1)]
    cases w with
    | nil => rfl
    | cons d w =>
      rw [ih hw.2 (by simp)]
      rfl

/-- A line begins at the place where an item starts with what is attached to it. -/
theorem beginsLine_take_itemStart {place : Nat} (h : place ≤ t.length) :
    BeginsLine (t.take (itemStart t place)) := by
  have le := lineStart_le t place
  have begins := beginsLine_take_lineStart h
  have length : (t.take (lineStart t place)).length = lineStart t place :=
    List.length_take_of_le (le.trans h)
  have joined := Text.flatten_lines (t.take (lineStart t place))
  have ends (l : Text) (hl : l ∈ Text.lines (t.take (lineStart t place))) :
      ∃ x, l = x ++ ['\n'] := by
    rcases begins.cases with hnil | ⟨u, hu⟩
    · rw [hnil] at hl
      cases hl
    · rw [hu] at hl
      obtain ⟨x, hx, -⟩ := exists_of_mem_lines hl
      exact ⟨x, hx⟩
  have start : itemStart t place = lineStart t place -
      ((Text.lines (t.take (lineStart t place))).reverse.takeWhile isAttached).flatten.length := rfl
  generalize Text.lines (t.take (lineStart t place)) = ls at joined ends start
  obtain ⟨front, attached, rfl, hattached⟩ : ∃ front attached, ls = front ++ attached ∧
      attached = (ls.reverse.takeWhile isAttached).reverse := by
    refine ⟨(ls.reverse.dropWhile isAttached).reverse, _, ?_, rfl⟩
    rw [← List.reverse_append, List.takeWhile_append_dropWhile, List.reverse_reverse]
  have same : ((front ++ attached).reverse.takeWhile isAttached).flatten.length =
      attached.flatten.length := by
    rw [List.length_flatten, List.length_flatten, hattached, List.map_reverse, List.sum_reverse,
      ← hattached]
  rw [List.flatten_append] at joined
  have place' : itemStart t place = front.flatten.length := by
    rw [start, same, ← length, ← joined, List.length_append, Nat.add_sub_cancel]
  have taken : t.take (itemStart t place) = front.flatten := by
    have whole : t = front.flatten ++ (attached.flatten ++ t.drop (lineStart t place)) := by
      rw [← List.append_assoc, joined, List.take_append_drop]
    rw [place']
    conv_lhs => rw [whole]
    exact List.take_left
  rw [taken]
  rcases List.eq_nil_or_concat front with rfl | ⟨init, l, rfl⟩
  · nofun
  · obtain ⟨x, rfl⟩ := ends l (by simp)
    rw [List.concat_eq_append, List.flatten_append, List.flatten_singleton, ← List.append_assoc]
    exact beginsLine_newline _

theorem beginsLine_endLine (t : Text) : BeginsLine (endLine t) := by
  rw [endLine]
  split
  · rename_i hlast
    rw [BeginsLine, hlast]
    exact fun c hc => (Option.some.inj hc).symm
  · exact beginsLine_newline t

theorem endLine_append (hb : b ≠ []) : endLine (a ++ b) = a ++ endLine b := by
  obtain ⟨init, c, rfl⟩ := (List.eq_nil_or_concat b).resolve_left hb
  rw [endLine, endLine, List.concat_eq_append, ← List.append_assoc, List.getLast?_concat,
    List.getLast?_concat]
  split
  · rw [List.append_assoc]
  · simp only [List.append_assoc]

theorem BeginsLine.append (ha : BeginsLine a) (hb : BeginsLine b) : BeginsLine (a ++ b) := by
  cases b with
  | nil => rwa [List.append_nil]
  | cons c b => exact (beginsLine_append (by simp)).mpr hb

/-- Whether the last line of a text is one of its own and is attached to no item below it. -/
def Detached (t : Text) : Prop :=
  ∃ u l, t = u ++ '\n' :: (l ++ ['\n']) ∧ '\n' ∉ l ∧ isAttached (l ++ ['\n']) = false

theorem detached_blank (u : Text) : Detached (u ++ "\n\n") := ⟨u, [], rfl, by simp, by decide⟩

theorem dropEndWhile_prefix (p : Char → Bool) (t : Text) : Text.dropEndWhile p t <+: t := by
  induction t with
  | nil => exact List.prefix_rfl
  | cons c t ih =>
    unfold Text.dropEndWhile
    split
    · split
      · exact List.nil_prefix
      · exact ⟨t, rfl⟩
    · rename_i d ds hd
      rw [hd] at ih
      exact (List.prefix_cons_inj c).mpr ih

/-- A marker is no documentation. -/
theorem detached_markerLine (u : Text) (h : '\n' ∉ marker) :
    Detached (u ++ '\n' :: markerLine [] marker) := by
  refine ⟨u, "// " ++ marker, by simp [markerLine], by simpa using h, ?_⟩
  have start : Text.trimStart ("// " ++ marker ++ ['\n']) = "// " ++ marker ++ ['\n'] := rfl
  obtain ⟨rest, hrest⟩ : Text.trim ("// " ++ marker ++ ['\n']) <+: "// " ++ marker ++ ['\n'] := by
    rw [Text.trim, start]
    exact dropEndWhile_prefix _ _
  have apart {word : Text} (hw : word = "///" ∨ word = "#[") :
      (Text.stripStart word (Text.trim ("// " ++ marker ++ ['\n']))).isSome = false := by
    refine Option.isSome_eq_false_iff.mpr (Option.isNone_iff_eq_none.mpr ?_)
    refine Option.eq_none_iff_forall_ne_some.mpr fun r hr => ?_
    have split := Text.stripStart_eq_some_iff.mp hr
    rw [split, List.append_assoc, List.append_assoc] at hrest
    rcases hw with rfl | rfl
    · have chars : '/' :: '/' :: '/' :: (r ++ rest) = '/' :: '/' :: ' ' ::
          (marker ++ ['\n']) := hrest
      simp at chars
    · have chars : '#' :: '[' :: (r ++ rest) = '/' :: '/' :: ' ' :: (marker ++ ['\n']) := hrest
      simp at chars
  simp only [isAttached, apart (.inl rfl), apart (.inr rfl), Bool.or_self]

theorem Detached.beginsLine (h : Detached t) : BeginsLine t := by
  obtain ⟨u, l, rfl, -, -⟩ := h
  have split : u ++ '\n' :: (l ++ ['\n']) = (u ++ '\n' :: l) ++ ['\n'] := by simp
  rw [split]
  exact beginsLine_newline _

theorem exists_lines_append (u z : Text) : ∃ ls, ls ≠ [] ∧
    Text.lines (u ++ '\n' :: z) = ls ++ Text.lines z := by
  induction u with
  | nil => exact ⟨[['\n']], by simp, rfl⟩
  | cons c u ih =>
    obtain ⟨ls, hne, hls⟩ := ih
    rw [List.cons_append, Text.lines]
    split
    · exact ⟨['\n'] :: ls, by simp, by rw [hls]; rfl⟩
    · obtain ⟨l, rest, rfl⟩ := List.exists_cons_of_ne_nil hne
      exact ⟨(c :: l) :: rest, by simp, by rw [hls]; rfl⟩

/-- Below such a line an item starts where its own line starts. -/
theorem Detached.itemStart (h : Detached a) (b : Text) :
    itemStart (a ++ b) a.length = a.length := by
  obtain ⟨u, l, rfl, hl, hattached⟩ := h
  have start : lineStart (u ++ '\n' :: (l ++ ['\n']) ++ b) (u ++ '\n' :: (l ++ ['\n'])).length =
      (u ++ '\n' :: (l ++ ['\n'])).length := by
    have own := lineStart_append (u := u ++ '\n' :: l) (v := []) (by simp) b
    have split : u ++ '\n' :: l ++ ['\n'] = u ++ '\n' :: (l ++ ['\n']) := by simp
    rw [split] at own
    rw [own]
    simp
    omega
  obtain ⟨ls, -, hls⟩ := exists_lines_append u (l ++ ['\n'])
  have last : Text.lines (l ++ ['\n']) = [l ++ ['\n']] := lines_append hl []
  rw [Code.itemStart]
  simp only [start, List.take_left, hls, last, List.reverse_append, List.reverse_singleton,
    List.singleton_append]
  rw [List.takeWhile_cons_of_neg (by simp [hattached])]
  simp

end SchemaDrift.Code
