import SchemaDrift.Proofs.Code.Cells
import SchemaDrift.Proofs.Merge.Cutting
import SchemaDrift.Proofs.Merge.Unlisting

namespace SchemaDrift

/-!
# Lines that a removed entry touches

The lines of an entry become comments below a marker. Behind an entry with a comma nothing else is
touched. Behind the last entry without one, what stands in front of the closing bracket becomes
comments too, up to the last comment there.
-/

namespace Code

variable {t : Text}

/-! ## Ends of entries -/

/-- Closed code ends a declaration with a separator or a brace, or the declaration goes on behind
it. -/
theorem endFrom_closed {depth d : Nat} {is : List Item}
    (h : level depth (is.map Item.mark) = some d) (rest : List Item) :
    (∃ i ∈ is, i.mark ∈ [',', ';', '\x7d'] ∧
      ∃ stop ∈ [End.separator i.start, .body i.start], endFrom depth (is ++ rest) = some stop) ∨
        endFrom depth (is ++ rest) = endFrom d rest := by
  induction is generalizing depth with
  | nil => exact .inr (by rw [← Option.some.inj h]; rfl)
  | cons i is ih =>
    have later {depth' : Nat} (hlevel : level depth' (is.map Item.mark) = some d)
        (step : endFrom depth (i :: is ++ rest) = endFrom depth' (is ++ rest)) :
        (∃ j ∈ i :: is, j.mark ∈ [',', ';', '\x7d'] ∧
          ∃ stop ∈ [End.separator j.start, .body j.start],
          endFrom depth (i :: is ++ rest) = some stop) ∨
            endFrom depth (i :: is ++ rest) = endFrom d rest := by
      rw [step]
      refine (ih hlevel).imp_left ?_
      rintro ⟨j, hj, hmark⟩
      exact ⟨j, List.mem_cons_of_mem i hj, hmark⟩
    by_cases hsep : (i.mark = ',' ∨ i.mark = ';') ∧ (depth : Int) = 0
    · refine .inl ⟨i, List.mem_cons_self, ?_, .separator i.start, by simp, ?_⟩
      · rcases hsep.1 with hmark | hmark <;> simp [hmark]
      · rw [List.cons_append, endFrom, if_pos hsep]
    simp only [List.map_cons, level] at h
    split at h
    · rename_i hopen
      refine later h ?_
      rw [List.cons_append, endFrom, if_neg hsep, if_pos hopen]
      rfl
    · rename_i hopen
      split at h
      · rename_i hclose
        cases depth with
        | zero => cases h
        | succ depth =>
          have less : ((depth + 1 : Nat) : Int) - 1 = depth := by omega
          have inside : ¬ ((depth : Int) < 0) := by omega
          by_cases hbody : (depth : Int) = 0 ∧ i.mark = '\x7d'
          · refine .inl ⟨i, List.mem_cons_self, by simp [hbody.2], .body i.start, by simp, ?_⟩
            rw [List.cons_append, endFrom, if_neg hsep, if_neg hopen, if_pos hclose, less,
              if_neg inside, if_pos hbody]
          · refine later h ?_
            rw [List.cons_append, endFrom, if_neg hsep, if_neg hopen, if_pos hclose, less,
              if_neg inside, if_neg hbody]
      · rename_i hclose
        refine later h ?_
        rw [List.cons_append, endFrom, if_neg hsep, if_neg hopen, if_neg hclose]

/-- How the declaration of an entry ends: in the entry or with its comma, or with the list. -/
inductive EndsEntry (t : Text) (closing : Nat) (e : Entry) : End → Prop
  | inside {place : Nat} {c : Char} {stop : End} (hstop : stop ∈ [End.separator place, .body place])
      (hstart : e.start ≤ place) (hle : place ≤ e.comma.getD (e.stop - 1)) (hlt : place < closing)
      (hc : t[place]? = some c) (hline : c ≠ '\n') : EndsEntry t closing e stop
  | close (hfilled : e.start < e.stop) (hcomma : e.comma = none)
      (hquiet : ∀ i ∈ items t, e.stop ≤ i.start → i.start < closing → Text.isBlank i.mark = true) :
      EndsEntry t closing e (.blockClose closing)

theorem isBlank_of_mem_gaps {gs : List Piece} {i : Item} {place : Nat} (h : ∀ g ∈ gs, IsGap g)
    (hi : i ∈ itemsOf place gs) : Text.isBlank i.mark = true := by
  obtain ⟨ps, g, qs, rfl, hmark, -, -⟩ := exists_of_mem_itemsOf hi
  have gap : IsGap g := h g (by simp)
  cases g with
  | plain c => exact Option.some.inj hmark ▸ gap
  | literal q s => cases gap
  | comment s => cases hmark

theorem le_of_commaIn {ls : List Piece} {place comma : Nat} (h : commaIn place ls = some comma) :
    place ≤ comma := by
  induction ls generalizing place with
  | nil => cases h
  | cons p ls ih =>
    rw [commaIn] at h
    split at h
    · exact (Option.some.inj h).le
    · exact (Nat.le_add_right _ _).trans (ih h)

theorem exists_of_mem_cellEntries {ss : List Cell} {place : Nat} {e : Entry}
    (h : e ∈ cellEntries place ss) : ∃ as s bs, ss = as ++ s :: bs ∧
      e = s.entry (place + (textOf (cellPieces as)).length) := by
  induction ss generalizing place with
  | nil => cases h
  | cons s ss ih =>
    rcases List.mem_cons.mp h with rfl | h
    · exact ⟨[], s, ss, rfl, rfl⟩
    · obtain ⟨as, r, bs, rfl, rfl⟩ := ih h
      refine ⟨s :: as, r, bs, rfl, ?_⟩
      simp [Cell.pieces, Nat.add_assoc]

/-- A declaration ends at a comma behind gaps. -/
theorem endFrom_comma {gs ls : List Piece} (hgs : ∀ g ∈ gs, IsGap g) (place : Nat) :
    endFrom 0 (itemsOf place (gs ++ .plain ',' :: ls)) =
      some (.separator (place + (textOf gs).length)) := by
  rw [itemsOf_append, endFrom_gaps hgs]
  rfl

/-- A declaration ends at a bracket behind gaps that closes the list around it. -/
theorem endFrom_close {gs post : List Piece} {close : Char} (hgs : ∀ g ∈ gs, IsGap g)
    (hclose : closes close = true) (place : Nat) :
    endFrom 0 (itemsOf place (gs ++ .plain close :: post)) =
      some (.blockClose (place + (textOf gs).length)) := by
  have notEnd : ¬ (close = ',' ∨ close = ';') := by
    rintro (rfl | rfl) <;> exact absurd hclose (by decide)
  rw [itemsOf_append, endFrom_gaps hgs]
  simp [itemsOf, Piece.mark?, endFrom, notEnd, not_opens_of_closes hclose, hclose]

section Cells

variable {front rest : List Piece} {s : Cell} {closing : Nat} {stop : End}
  (h : pieces 0 none t = front ++ (s.core ++ (s.tail ++ rest)))
include h

theorem endsEntry_of_core {i : Item} (hi : i ∈ itemsOf (textOf front).length s.core)
    (hmark : i.mark ∈ [',', ';', '\x7d']) (hstop : stop ∈ [End.separator i.start, .body i.start])
    (hclosing : (textOf (front ++ s.core)).length ≤ closing) :
    EndsEntry t closing (s.entry (textOf front).length) stop := by
  have behind : i ∈ itemsFrom t (textOf front).length := by
    rw [itemsFrom_of_pieces h, itemsOf_append]
    exact List.mem_append_left _ hi
  have mem := (mem_items_of_mem_itemsFrom behind).1
  obtain ⟨hstart, hend⟩ := bounds_of_mem_itemsOf hi
  have positive := start_lt_stop mem
  have plain : ∀ c ∈ [',', ';', '\x7d'], c ∉ ['"', '\''] ∧ c ≠ '\n' := by decide
  have here := getElem?_start mem (plain _ hmark).1
  rw [textOf_append, List.length_append] at hclosing
  refine .inside hstop hstart ?_ (by omega) here (plain _ hmark).2
  cases hcomma : (s.entry (textOf front).length).comma with
  | none =>
    simp only [Option.getD_none, Cell.entry]
    omega
  | some comma =>
    have later := le_of_commaIn hcomma
    rw [Option.getD_some]
    omega

/-- An entry ends at the first comma behind it. -/
theorem exists_endsEntry_of_comma {gs ls : List Piece} (htail : s.tail = gs ++ .plain ',' :: ls)
    (hgs : .plain ',' ∉ gs) (hgaps : ∀ g ∈ gs, IsGap g)
    (hclosing : (textOf (front ++ (s.core ++ s.tail))).length ≤ closing) :
    ∃ stop, endFrom 0 (itemsOf (textOf (front ++ s.core)).length (s.tail ++ rest)) = some stop ∧
      EndsEntry t closing (s.entry (textOf front).length) stop := by
  have comma := Cell.comma_entry htail hgs (textOf front).length
  have place : (textOf front).length + (textOf (s.core ++ gs)).length =
      (textOf (front ++ (s.core ++ gs))).length := by simp
  have whole : t = textOf (front ++ (s.core ++ gs)) ++ ',' :: textOf (ls ++ rest) := by
    have split : pieces 0 none t = (front ++ (s.core ++ gs)) ++ (.plain ',' :: (ls ++ rest)) := by
      rw [h, htail]
      simp
    exact (isCut_of_pieces split).1
  have here : t[(textOf (front ++ (s.core ++ gs))).length]? = some ',' := by
    conv_lhs => rw [whole]
    simp
  refine ⟨.separator (textOf (front ++ (s.core ++ gs))).length, ?_,
    .inside List.mem_cons_self ?_ ?_ ?_ here (by decide)⟩
  · have after : (textOf (front ++ s.core)).length + (textOf gs).length =
        (textOf (front ++ (s.core ++ gs))).length := by simp [Nat.add_assoc]
    rw [htail, List.append_assoc, List.cons_append, endFrom_comma hgaps, after]
  · rw [← place]
    exact Nat.le_add_right _ _
  · rw [comma, Option.getD_some, place]
  · refine lt_of_lt_of_le ?_ hclosing
    rw [htail]
    simp [Piece.text]

/-- The last entry without a comma ends with the list. -/
theorem exists_endsEntry_of_close {close : Char} {post : List Piece} (hcore : IsCore s.core)
    (hrest : rest = .plain close :: post) (hclose : closes close = true)
    (hgaps : ∀ g ∈ s.tail, IsGap g) (hnone : .plain ',' ∉ s.tail) :
    ∃ stop, endFrom 0 (itemsOf (textOf (front ++ s.core)).length (s.tail ++ rest)) = some stop ∧
      EndsEntry t (textOf (front ++ (s.core ++ s.tail))).length
        (s.entry (textOf front).length) stop := by
  have before : (textOf (front ++ s.core)).length + (textOf s.tail).length =
      (textOf (front ++ (s.core ++ s.tail))).length := by simp [Nat.add_assoc]
  have split : pieces 0 none t = (front ++ s.core) ++ (s.tail ++ rest) := by
    rw [h, List.append_assoc]
  refine ⟨.blockClose (textOf (front ++ (s.core ++ s.tail))).length, ?_,
    .close ?_ (commaIn_of_not_mem hnone _) fun i hi hfrom hto => ?_⟩
  · rw [hrest, endFrom_close hgaps hclose, before]
  · obtain ⟨qs, p, hlast, -⟩ := hcore.last
    have filled : p.text ≠ [] := solid_left split p (by simp [hlast])
    have positive : 0 < (textOf s.core).length := by
      rw [hlast, textOf_append, List.length_append]
      have := List.length_pos_of_ne_nil filled
      simp
      omega
    exact Nat.lt_add_of_pos_right positive
  · -- What stands behind the element and in front of the bracket are its gaps.
    have stop : (s.entry (textOf front).length).stop = (textOf (front ++ s.core)).length := by
      rw [textOf_append, List.length_append]
      rfl
    rw [stop] at hfrom
    have own : i ∈ itemsFrom t (textOf (front ++ s.core)).length :=
      List.mem_filter.mpr ⟨hi, decide_eq_true hfrom⟩
    rw [itemsFrom_of_pieces split, itemsOf_append, before] at own
    rcases List.mem_append.mp own with gap | beyond
    · exact isBlank_of_mem_gaps hgaps gap
    · exact absurd (bounds_of_mem_itemsOf beyond).1 (Nat.not_le.mpr hto)

end Cells

/-- The declaration of every entry in the list of fields ends. -/
theorem exists_endsEntry {opening closing : Nat} {e : Entry}
    (hlist : fieldsList? t = some (opening, closing)) (he : e ∈ entries t opening closing) :
    ∃ stop, declarationEnd? t e.start = some stop ∧ EndsEntry t closing e stop := by
  obtain ⟨pre, body, post, close, framed, rfl, rfl⟩ := exists_framed hlist
  obtain ⟨lead, ss, rfl, hlead, hcells⟩ := exists_cells
    (fun p hp => isGenuine_of_mem (t := t) (by rw [framed.pieces_eq]; simp [hp])) framed.isPaired
  rw [framed.entries_eq, itemsOf_append, entriesOf_loose hlead, entriesOf_cells hcells] at he
  obtain ⟨as, s, bs, rfl, rfl⟩ := exists_of_mem_cellEntries he
  obtain ⟨-, hcore, hloose, hcomma, -⟩ := areCells_append_cons.mp hcells
  have place : (textOf pre).length + 1 + (textOf lead).length + (textOf (cellPieces as)).length =
      (textOf (pre ++ .plain '[' :: (lead ++ cellPieces as))).length := by
    simp [Piece.text]
    omega
  have closing : (textOf pre).length + 1 + (textOf (lead ++ cellPieces (as ++ s :: bs))).length =
      (textOf (pre ++ .plain '[' :: (lead ++ cellPieces as) ++ (s.core ++ s.tail))).length +
        (textOf (cellPieces bs)).length := by
    simp [Piece.text]
    omega
  have whole : pieces 0 none t = (pre ++ .plain '[' :: (lead ++ cellPieces as)) ++
      (s.core ++ (s.tail ++ (cellPieces bs ++ .plain close :: post))) := by
    rw [framed.pieces_eq]
    simp
  rw [place, closing]
  generalize pre ++ .plain '[' :: (lead ++ cellPieces as) = front at whole
  have closed : level 0 ((itemsOf (textOf front).length s.core).map Item.mark) = some 0 := by
    rw [map_mark_itemsOf]
    exact hcore.closed
  have start : (s.entry (textOf front).length).start = (textOf front).length := rfl
  have after : (textOf front).length + (textOf s.core).length =
      (textOf (front ++ s.core)).length := by
    simp
  rw [start, declarationEnd?, itemsFrom_of_pieces whole, itemsOf_append]
  rcases endFrom_closed closed (itemsOf ((textOf front).length + (textOf s.core).length)
    (s.tail ++ (cellPieces bs ++ .plain close :: post))) with ⟨i, hi, hmark, stop,
    hstop, hend⟩ | hend
  · refine ⟨stop, hend, endsEntry_of_core whole hi hmark hstop ?_⟩
    simp
    omega
  rw [Int.natCast_zero] at hend
  rw [hend, after]
  rcases tail_cases hloose with ⟨hnone, hgaps⟩ | ⟨gs, ls, htail, hgs, hgaps⟩
  · obtain rfl := hcomma.resolve_right hnone
    exact exists_endsEntry_of_close whole hcore rfl framed.closes hgaps hnone
  · exact exists_endsEntry_of_comma whole htail hgs hgaps (Nat.le_add_right _ _)

theorem EndsEntry.bounds {closing : Nat} {e : Entry} {stop : End}
    (h : EndsEntry t closing e stop) (hclosing : e.stop ≤ closing)
    (hlast : ∃ d, t[e.stop - 1]? = some d ∧ Text.isBlank d = false) :
    e.start ≤ stop.after t ∧ stop.after t ≤ closing := by
  cases h with
  | @inside place c stop hstop hstart hle hlt hc hline =>
    have after : stop.after t = place + 1 := by
      simp only [List.mem_cons, List.not_mem_nil, or_false] at hstop
      rcases hstop with rfl | rfl <;> rfl
    omega
  | close hfilled hcomma hquiet =>
    obtain ⟨d, hd, hblank⟩ := hlast
    have trimmed := lt_length_trimEnd (q := closing) (by omega) hd hblank
    have upTo := (Text.trimEnd_prefix (t.take closing)).length_le
    rw [List.length_take] at upTo
    rw [End.after]
    omega

end Code

namespace Merge

open Code

variable {t t' name marker : Text} {opening closing : Nat} {e : Entry} {stop : End}

/-- Whether the lines between two places are those behind an entry without a comma, up to the last
character in front of the closing bracket that is not blank. No code stands there. -/
structure Trails (t : Text) (closing : Nat) (e : Entry) (first last : Nat) : Prop where
  ends : declarationEnd? t e.start = some (.blockClose closing)
  noComma : e.comma = none
  noCode : ∀ i ∈ items t, e.stop ≤ i.start → i.start < closing → Text.isBlank i.mark = true
  first_eq : first = lineEnd t (e.stop - 1)
  last_eq : last = lineEnd t (Text.trimEnd (t.take closing)).length

/-- Whether the lines of a text are those above an entry, those of the entry, which end with its
last character or its comma at the latest, more lines up to the closing bracket, and those below. -/
structure Reaches (t : Text) (closing : Nat) (e : Entry) (above own more below : List Text) :
    Prop where
  lines_eq : Text.lines t = above ++ (own ++ (more ++ below))
  above_length : above.flatten.length = lineStart t e.start
  own_length : (above ++ own).flatten.length ≤ lineEnd t (e.comma.getD (e.stop - 1))
  more_length : (above ++ (own ++ more)).flatten.length ≤ closing
  more_cases : (more = [] ∧ ∀ place, declarationEnd? t e.start ≠ some (.blockClose place)) ∨
    Trails t closing e (above ++ own).flatten.length (above ++ (own ++ more)).flatten.length

/-- The text in which some lines became comments, with a marker above them. -/
def withRemarks (indent marker : Text) (above commented below : List Text) : Text :=
  (above ++ (markerLine indent marker :: (commented.map commentLine ++ below))).flatten

theorem matchingClose?_of_fieldsList (hlist : fieldsList? t = some (opening, closing)) :
    matchingClose? t opening = some closing := by
  obtain ⟨pre, body, post, close, framed, rfl, rfl⟩ := exists_framed hlist
  exact framed.matchingClose?_eq

theorem exists_getElem?_closing (hlist : fieldsList? t = some (opening, closing)) :
    ∃ c, t[closing]? = some c ∧ Text.isBlank c = false := by
  obtain ⟨pre, body, post, close, framed, -, rfl⟩ := exists_framed hlist
  refine ⟨close, ?_, not_blank_of_closes framed.closes⟩
  have whole : t = (textOf pre ++ '[' :: textOf body) ++ close :: textOf post := by
    rw [framed.text_eq]
    simp
  have place : (textOf pre).length + 1 + (textOf body).length =
      (textOf pre ++ '[' :: textOf body).length := by
    simp
    omega
  rw [place]
  conv_lhs => rw [whole]
  simp

section Span

variable {middle last : Nat} (hmiddle : lineStart t e.start ≤ middle) (hlast : middle ≤ last)
  (hbreak : Breaks (t.take middle) (t.drop middle))
include hmiddle hlast hbreak

/-- The lines of an entry up to one place, and more lines up to another one. -/
theorem reaches_of_middle (hlength : last ≤ t.length) (hstart : e.start ≤ t.length)
    (hclosing : last ≤ closing) (hbreak' : Breaks (t.take last) (t.drop last))
    (hown : middle ≤ lineEnd t (e.comma.getD (e.stop - 1)))
    (hcases : (middle = last ∧ ∀ place, declarationEnd? t e.start ≠ some (.blockClose place)) ∨
      Trails t closing e middle last) :
    Reaches t closing e (Text.lines (t.take (lineStart t e.start)))
      (Text.lines (Text.slice t (lineStart t e.start) middle))
      (Text.lines (Text.slice t middle last)) (Text.lines (t.drop last)) := by
  have first := beginsLine_take_lineStart hstart
  have upTo : (Text.lines (t.take (lineStart t e.start)) ++
      Text.lines (Text.slice t (lineStart t e.start) middle)).flatten.length = middle := by
    rw [List.flatten_append, Text.flatten_lines, Text.flatten_lines, take_append_slice hmiddle,
      List.length_take_of_le (hlast.trans hlength)]
  have upToLast : (Text.lines (t.take (lineStart t e.start)) ++
      (Text.lines (Text.slice t (lineStart t e.start) middle) ++
        Text.lines (Text.slice t middle last))).flatten.length = last := by
    rw [← lines_slice hmiddle hlast hbreak, List.flatten_append, Text.flatten_lines,
      Text.flatten_lines, take_append_slice (hmiddle.trans hlast), List.length_take_of_le hlength]
  refine ⟨?_, ?_, upTo.trans_le hown, upToLast.trans_le hclosing, ?_⟩
  · rw [← lines_drop hlast hbreak', ← lines_drop hmiddle hbreak, ← lines_of_breaks (.inl first),
      List.take_append_drop]
  · rw [Text.flatten_lines, List.length_take_of_le (hmiddle.trans (hlast.trans hlength))]
  · rw [upTo, upToLast]
    refine hcases.imp_left ?_
    rintro ⟨rfl, hend⟩
    refine ⟨?_, hend⟩
    have nothing : Text.slice t middle middle = [] := by simp [Text.slice]
    rw [nothing, Text.lines]

/-- The text in which the lines of a span became comments. -/
theorem replaceSpan_eq_withRemarks (indent marker : Text) (hlines : BeginsLine (t.take last)) :
    Text.replaceSpan t (lineStart t e.start) last (endLine (markerLine indent marker ++
        (Text.lines (Text.slice t (lineStart t e.start) last)).flatMap commentLine)) =
      withRemarks indent marker (Text.lines (t.take (lineStart t e.start)))
        (Text.lines (Text.slice t (lineStart t e.start) middle) ++
          Text.lines (Text.slice t middle last)) (Text.lines (t.drop last)) := by
  have block : Breaks (Text.slice t (lineStart t e.start) last) [' '] := by
    rw [← take_append_slice (hmiddle.trans hlast)] at hlines
    exact Breaks.of_append (.inl hlines)
  have begins : BeginsLine (Text.lines (Text.slice t (lineStart t e.start) last)).flatten := by
    rw [Text.flatten_lines]
    exact block.resolve_right (by simp)
  rw [← lines_slice hmiddle hlast hbreak, endLine_commentLines indent marker begins, withRemarks,
    List.flatten_append, Text.flatten_lines, List.flatten_cons, List.flatten_cons,
    List.flatten_append, Text.flatten_lines, Text.replaceSpan, List.append_assoc]

end Span

/-- Commenting out a field leaves all lines alone but those of its entry, and those behind it if it
is the last one and has no comma. -/
theorem lines_of_removeField (h : removeField t name marker = .ok t') :
    ∃ opening closing e above own more below, fieldsList? t = some (opening, closing) ∧
      (entries t opening closing).find?
      (fun e => isNamed name (Text.slice t e.start e.stop)) = some e ∧
      Reaches t closing e above own more below ∧
      t' = withRemarks (indentation t e.start) marker above (own ++ more) below := by
  obtain ⟨opening, closing, e, stop, hlist, hfind, hend, hout⟩ := exists_of_removeField h
  have mem := List.mem_of_find?_eq_some hfind
  obtain ⟨stop', hstop', ends⟩ := exists_endsEntry hlist mem
  obtain rfl := Option.some.inj (hend.symm.trans hstop')
  obtain ⟨-, hends, rfl⟩ := commentOut?_eq_some_iff.mp hout
  obtain ⟨hbehind, hlength, hpositive, hvisible⟩ :=
    stop_of_mem_entries (matchingClose?_of_fieldsList hlist) mem
  obtain ⟨hstart, hafter⟩ := ends.bounds hbehind hvisible
  obtain ⟨c, hc, hblank⟩ := exists_getElem?_closing hlist
  -- The closing bracket stands below the lines that become comments.
  have above := lineEnd_le_of_endsLine hends hafter hc hblank
  have inside : stop.after t ≤ t.length := hafter.trans hlength.le
  have reach := le_lineEnd inside
  have first := lineStart_le t e.start
  have breaks := breaks_lineEnd inside
  have lines : BeginsLine (t.take (lineEnd t (stop.after t))) :=
    breaks.resolve_right fun hnil => by
      have short := List.drop_eq_nil_iff.mp hnil
      omega
  suffices middle : ∃ middle, lineStart t e.start ≤ middle ∧ middle ≤ lineEnd t (stop.after t) ∧
      Breaks (t.take middle) (t.drop middle) ∧ middle ≤ lineEnd t (e.comma.getD (e.stop - 1)) ∧
        ((middle = lineEnd t (stop.after t) ∧
            ∀ place, declarationEnd? t e.start ≠ some (.blockClose place)) ∨
          Trails t closing e middle (lineEnd t (stop.after t))) by
    obtain ⟨middle, hmiddle, hlast, hbreak, hown, hcases⟩ := middle
    have total := above.trans hlength.le
    exact ⟨opening, closing, e, _, _, _, _, hlist, hfind,
      reaches_of_middle hmiddle hlast hbreak total (by omega) above breaks hown hcases,
      replaceSpan_eq_withRemarks hmiddle hlast hbreak _ marker lines⟩
  cases ends with
  | @inside place c stop hstop hfrom hle hlt hc hline =>
    simp only [List.mem_cons, List.not_mem_nil, or_false] at hstop
    have after : stop.after t = place + 1 := by rcases hstop with rfl | rfl <;> rfl
    have own : lineEnd t (stop.after t) ≤ lineEnd t (e.comma.getD (e.stop - 1)) := by
      rw [after, lineEnd_succ hc hline]
      exact lineEnd_mono hle (by omega)
    refine ⟨_, by omega, le_rfl, breaks, own, .inl ⟨rfl, fun k hk => ?_⟩⟩
    obtain rfl := Option.some.inj (hend.symm.trans hk)
    simp at hstop
  | close hfilled hcomma hquiet =>
    obtain ⟨d, hd, hvisible⟩ := hvisible
    have shown : e.stop - 1 < ((End.blockClose closing).after t) :=
      lt_length_trimEnd (by omega) hd hvisible
    have own : e.stop - 1 ≤ t.length := by omega
    have line := le_lineEnd own
    refine ⟨lineEnd t (e.stop - 1), by omega, lineEnd_mono shown.le own, breaks_lineEnd own, ?_,
      .inr ⟨hend, hcomma, hquiet, rfl, rfl⟩⟩
    rw [hcomma, Option.getD_none]

/-- A list of fields with a comment behind its only entry, which has no comma. -/
def trailed : Text := "m.fields(vec![\n    (\"b\", B)\n    // keep me\n])\n"

def retrailed : Text := "m.fields(vec![\n    // R\n    // (\"b\", B)\n    // // keep me\n])\n"

theorem removeField_trailed : removeField trailed "b" "R" = .ok retrailed := by decide +kernel

/-- The comment behind the entry is among the lines that become comments. -/
theorem lines_of_removeField_trailed : removeField trailed "b" "R" = .ok retrailed ∧
    ∃ opening closing e above own more below, fieldsList? trailed = some (opening, closing) ∧
      (entries trailed opening closing).find?
        (fun e => isNamed "b" (Text.slice trailed e.start e.stop)) = some e ∧
      Reaches trailed closing e above own more below ∧
      retrailed = withRemarks (indentation trailed e.start) "R" above (own ++ more) below :=
  ⟨removeField_trailed, lines_of_removeField removeField_trailed⟩

/-- Lines below those of the entry are touched. -/
theorem not_forall_lines_of_removeField :
    ¬ ∀ (t name marker t' : Text), removeField t name marker = .ok t' →
      ∃ opening closing e above own below final, fieldsList? t = some (opening, closing) ∧
        (entries t opening closing).find?
        (fun e => isNamed name (Text.slice t e.start e.stop)) = some e ∧
        Text.lines t = above ++ (own ++ below) ∧ above.flatten.length = lineStart t e.start ∧
        (above ++ own).flatten.length ≤ lineEnd t (e.comma.getD (e.stop - 1)) ∧
        t' = withRemarks (indentation t e.start) marker above own below ++ final ∧
        (final = [] ∨ final = ['\n'] ∧ below = []) := by
  intro h
  obtain ⟨opening, closing, e, above, own, below, final, hlist, hfind, hlines, -, hown,
    htext, hfinal⟩ :=
    h trailed "b" "R" retrailed removeField_trailed
  have list : fieldsList? trailed = some (13, 43) := by decide +kernel
  obtain ⟨rfl, rfl⟩ := Prod.mk.inj (Option.some.inj (list.symm.trans hlist))
  have entry : (entries trailed 13 43).find?
      (fun e => isNamed "b" (Text.slice trailed e.start e.stop)) = some ⟨19, 27, none⟩ := by
    decide +kernel
  obtain rfl := Option.some.inj (entry.symm.trans hfind)
  -- The text behind the entry is the end of the lines below.
  have whole : (above ++ own).flatten ++ below.flatten = trailed := by
    rw [← Text.flatten_lines trailed, hlines]
    simp
  have behind : trailed.drop (lineEnd trailed 26) <:+ below.flatten := by
    have rest : trailed.drop (above ++ own).flatten.length = below.flatten := by
      rw [← whole, List.drop_left]
    have reach : (above ++ own).flatten.length ≤ lineEnd trailed 26 := hown
    rw [← rest, ← Nat.add_sub_cancel' reach, ← List.drop_drop]
    exact List.drop_suffix _ _
  rcases hfinal with rfl | ⟨-, rfl⟩
  · have kept : below.flatten <:+ retrailed := by
      refine ⟨above.flatten ++ (markerLine (indentation trailed 19) "R" ++
        (own.map commentLine).flatten), ?_⟩
      rw [htext, withRemarks]
      simp
    have changed : ¬ trailed.drop (lineEnd trailed 26) <:+ retrailed := by decide +kernel
    exact changed (behind.trans kept)
  · have filled : trailed.drop (lineEnd trailed 26) ≠ [] := by decide +kernel
    exact filled (List.suffix_nil.mp behind)

end Merge

end SchemaDrift
