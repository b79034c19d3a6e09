import SchemaDrift.Proofs.Code.LineEnds
import SchemaDrift.Proofs.Code.Place
import SchemaDrift.Proofs.Merge.Definitions

namespace SchemaDrift

/-!
# Taking a function off the list of definitions

The function of a removed index is commented out, and the first element of the list of definitions
that calls it is commented out or cut out. What goes with a cut element is the comma next to it and
all that stands between the two.
-/

namespace Code

variable {a b m t t' marker : Text} {gs ls : List Piece} {s r : Cell} {as bs ss : List Cell}

/-! ## Lines that become comments -/

/-- Whether the last text is the first three joined, with the lines of the second one turned into
comments, on which nothing else stands. -/
inductive Commented (marker : Text) : Text → Text → Text → Text → Prop
  | lines {above v m w below indent : Text} (habove : BeginsLine above)
      (hv : ∀ c ∈ v, Text.isBlank c = true) (hw : ∀ c ∈ w, Text.isBlank c = true)
      (hbelow : below = [] ∨ ∃ x, m ++ w = x ++ ['\n'])
      (hindent : ∀ c ∈ indent, Text.isBlank c = true) :
      Commented marker (above ++ v) m (w ++ below)
        (above ++ (endLine (markerLine indent marker ++
          (Text.lines (v ++ (m ++ w))).flatMap commentLine) ++ below))

/-- The line behind a place ends with a newline or with the text. -/
theorem exists_line_end (a m b : Text) : ∃ w below, b = w ++ below ∧
    lineEnd (a ++ (m ++ b)) (a ++ m).length = (a ++ (m ++ w)).length ∧
      (below = [] ∨ ∃ x, m ++ w = x ++ ['\n']) := by
  have inside : (a ++ m).length ≤ (a ++ (m ++ b)).length := by simp
  rcases lineEnd_cases inside with hlast | ⟨w, z, hsplit, hlast⟩
  · exact ⟨b, [], by simp, hlast, .inl rfl⟩
  · have whole : a ++ m ++ b = a ++ m ++ (w ++ '\n' :: z) := by
      rwa [← List.append_assoc, List.take_left] at hsplit
    have behind : b = w ++ '\n' :: z := List.append_cancel_left whole
    refine ⟨w ++ ['\n'], z, by simp [behind], ?_, .inr ⟨m ++ w, by simp⟩⟩
    rw [hlast]
    simp only [List.length_append, List.length_singleton]
    omega

theorem commented_of_commentOut?
    (h : commentOut? (a ++ (m ++ b)) a.length (a ++ m).length marker = some t') :
    Commented marker a m b t' := by
  have start : (a ++ (m ++ b)).take a.length = a := List.take_left
  obtain ⟨w, below, hb, hlast, hbelow⟩ := exists_line_end a m b
  generalize ht : a ++ (m ++ b) = t at h start hlast
  rw [commentOut?] at h
  split at h
  · rename_i both
    obtain ⟨hstarts, hends⟩ := Bool.and_eq_true_iff.mp both
    have first := lineStart_le t a.length
    have upToLine {k : Nat} (hk : k ≤ a.length) : t.take k = a.take k := by
      rw [← ht, List.take_append_of_le_length hk]
    have above : a = t.take (lineStart t a.length) ++ a.drop (lineStart t a.length) := by
      rw [upToLine first, List.take_append_drop]
    rw [startsLine, Text.slice, start] at hstarts
    have whole : t = (a ++ (m ++ w)) ++ below := by
      rw [← ht, hb]
      simp
    have upTo : t.take (a ++ (m ++ w)).length = a ++ (m ++ w) := by rw [whole, List.take_left]
    have behind : t.drop (a ++ (m ++ w)).length = below := by rw [whole, List.drop_left]
    have blank : Text.allBlank w = true := by
      rw [endsLine, Text.slice, hlast, upTo, ← List.append_assoc, List.drop_left] at hends
      exact hends
    have span : Text.slice t (lineStart t a.length) (a ++ (m ++ w)).length =
        a.drop (lineStart t a.length) ++ (m ++ w) := by
      rw [Text.slice, upTo, List.drop_append_of_le_length first]
    simp only [hlast, span, Text.replaceSpan, behind, Option.some.injEq] at h
    have begins : BeginsLine (t.take (lineStart t a.length)) :=
      beginsLine_take_lineStart (by rw [← ht]; simp)
    have lines : Commented marker _ m (w ++ below) _ :=
      .lines begins (List.all_eq_true.mp hstarts) (List.all_eq_true.mp blank) hbelow
        fun c (hc : c ∈ indentation t a.length) => isBlank_of_mem_indentation hc
    rw [← above, ← hb] at lines
    rw [← h]
    exact lines
  · cases h

theorem sublist_commentLine (l : Text) : l.Sublist (commentLine l) := by
  rw [commentLine]
  split
  · exact .refl l
  · have slashes :=
      (List.sublist_append_right ("// " : Text) (l.dropWhile Text.isIndent)).append_left
      (l.takeWhile Text.isIndent)
    rwa [List.takeWhile_append_dropWhile] at slashes

theorem sublist_endLine (t : Text) : t.Sublist (endLine t) := by
  rw [endLine]
  split
  · exact .refl t
  · exact List.sublist_append_left t _

/-- Turning lines into comments deletes nothing. -/
theorem Commented.sublist (h : Commented marker a m b t') : (a ++ (m ++ b)).Sublist t' := by
  obtain @⟨above, v, m, w, below, indent, -, -, -, -, -⟩ := h
  have lines (ls : List Text) : ls.flatten.Sublist (ls.flatMap commentLine) := by
    induction ls with
    | nil => exact .slnil
    | cons l ls ih => exact (sublist_commentLine l).append ih
  have block := (lines (Text.lines (v ++ (m ++ w)))).trans
    ((List.sublist_append_right (markerLine indent marker) _).trans (sublist_endLine _))
  rw [Text.flatten_lines] at block
  have whole := (block.append_right below).append_left above
  simpa using whole

/-! ## Commas behind an element -/

/-- The first comma behind an element, or only gaps. -/
theorem tail_cases (hl : ∀ p ∈ ls, IsLoose p) : (.plain ',' ∉ ls ∧ ∀ p ∈ ls, IsGap p) ∨
    ∃ gs rest, ls = gs ++ .plain ',' :: rest ∧ .plain ',' ∉ gs ∧ ∀ g ∈ gs, IsGap g := by
  by_cases h : .plain ',' ∈ ls
  · obtain ⟨gs, rest, rfl, hgs⟩ := List.eq_append_cons_of_mem h
    exact .inr ⟨gs, rest, rfl, hgs, fun g hg =>
      (hl g (by simp [hg])).resolve_right fun hc => hgs (hc ▸ hg)⟩
  · exact .inl ⟨h, fun p hp => (hl p hp).resolve_right fun hc => h (hc ▸ hp)⟩

theorem commaIn_of_not_mem (h : .plain ',' ∉ ls) (place : Nat) : commaIn place ls = none := by
  induction ls generalizing place with
  | nil => rfl
  | cons p ls ih =>
    obtain ⟨hp, hls⟩ := not_or.mp fun hm => h (List.mem_cons.mpr hm)
    rw [commaIn, if_neg (Ne.symm hp), ih hls]

theorem commaIn_append (h : .plain ',' ∉ gs) (place : Nat) (rest : List Piece) :
    commaIn place (gs ++ .plain ',' :: rest) = some (place + (textOf gs).length) := by
  induction gs generalizing place with
  | nil => rfl
  | cons p gs ih =>
    obtain ⟨hp, hgs⟩ := not_or.mp fun hm => h (List.mem_cons.mpr hm)
    rw [List.cons_append, commaIn, if_neg (Ne.symm hp), ih hgs, textOf_cons, List.length_append,
      Nat.add_assoc]

theorem Cell.comma_entry (htail : s.tail = gs ++ .plain ',' :: ls) (hgs : .plain ',' ∉ gs)
    (place : Nat) : (s.entry place).comma = some (place + (textOf (s.core ++ gs)).length) := by
  rw [entry, htail, commaIn_append hgs, textOf_append, List.length_append, Nat.add_assoc]

theorem getLast?_cellEntries_concat (place : Nat) (as : List Cell) (s : Cell) :
    (cellEntries place (as ++ [s])).getLast? =
      some (s.entry (place + (textOf (cellPieces as)).length)) := by
  rw [cellEntries_append, cellEntries, cellEntries, List.getLast?_append]
  rfl

theorem areCells_append_cons : AreCells (as ++ s :: bs) ↔
    (∀ a ∈ as, IsCore a.core ∧ (∀ p ∈ a.tail, IsLoose p) ∧ .plain ',' ∈ a.tail) ∧
      AreCells (s :: bs) := by
  induction as with
  | nil => simp
  | cons a as ih =>
    rw [List.cons_append, AreCells, ih, List.forall_mem_cons]
    simp [and_assoc]

/-- The cells around one of a list. -/
theorem areCells_append_of_cons (h : AreCells (as ++ s :: bs)) : AreCells (as ++ bs) := by
  induction as with
  | nil => exact h.2.2.2
  | cons a as ih =>
    obtain ⟨hcore, htail, hcomma, hrest⟩ := h
    exact ⟨hcore, htail, .inr (hcomma.resolve_left (by simp)), ih hrest⟩

end Code

namespace Merge

open Code

variable {t t' u name function call marker : Text} {pre post ps qs ds es gs lead lost : List Piece}
  {close : Char} {as bs ss : List Cell} {s : Cell}

/-! ## Functions that are removed -/

/-- The span of a function, from what is attached to it up to the brace behind its body. -/
def functionSpan? (t function : Text) : Option (Nat × Nat) := do
  let declaration ← function? t function
  match declarationEnd? t declaration with
  | some (.body stop) =>
    let first := itemStart t declaration
    some (first + ((t.drop first).takeWhile Text.isBlank).length, stop + 1)
  | _ => none

theorem removeIndex_eq_ok_iff : removeIndex t name marker = .ok t' ↔
    ∃ start stop u, functionSpan? t (Source.functionOf name) = some (start, stop) ∧
      commentOut? t start stop marker = some u ∧
      t' = unlistDefinition u (Source.functionOf name) marker := by
  rw [removeIndex, functionSpan?]
  dsimp only
  cases function? t (Source.functionOf name) with
  | none => simp
  | some declaration =>
    dsimp only [Option.bind_eq_bind, Option.bind_some]
    cases declarationEnd? t declaration with
    | none => simp
    | some stop =>
      cases stop with
      | separator place => simp
      | blockClose place => simp
      | body place =>
        simp only [Option.some.injEq, Prod.mk.injEq]
        cases hout : commentOut? t (itemStart t declaration +
            ((t.drop (itemStart t declaration)).takeWhile Text.isBlank).length)
              (place + 1) marker with
        | none => simp [hout]
        | some u => simp [hout, eq_comm]

theorem length_takeWhile_le {p : Char → Bool} {k : Nat} {c : Char} (hc : t[k]? = some c)
    (hp : p c = false) : (t.takeWhile p).length ≤ k := by
  by_contra hlt
  have here : (t.takeWhile p)[k]? = some c := by
    obtain ⟨rest, hrest⟩ := List.takeWhile_prefix (p := p) (l := t)
    rw [← hrest, List.getElem?_append_left (Nat.lt_of_not_le hlt)] at hc
    exact hc
  have true : p c = true := List.mem_takeWhile_imp (List.mem_of_getElem? here)
  rw [hp] at true
  cases true

theorem bounds_of_functionSpan? {start stop : Nat}
    (h : functionSpan? t function = some (start, stop)) : start ≤ stop ∧ stop ≤ t.length := by
  obtain ⟨declaration, hfunction, h⟩ := Option.bind_eq_some_iff.mp h
  split at h
  · rename_i place hend
    obtain ⟨rfl, rfl⟩ := Prod.mk.inj (Option.some.inj h)
    obtain ⟨⟨found, after⟩, hfound, rfl⟩ := Option.map_eq_some_iff.mp hfunction
    obtain ⟨-, b, r, hpattern, -⟩ := exists_of_findFrom hfound
    obtain ⟨i, hi, hstop⟩ := exists_mem_of_endFrom hend
    have same : place = i.start := by
      rcases hstop with hstop | hstop | ⟨hstop, -⟩
      · cases hstop
      · exact End.body.inj hstop
      · cases hstop
    obtain ⟨hi, hle⟩ := mem_items_of_mem_itemsFrom hi
    have inside := (start_lt_stop hi).trans_le (stop_le_length hi)
    -- The head of the function is not blank.
    obtain ⟨c, hc, hblank⟩ : ∃ c, t[found]? = some c ∧ Text.isBlank c = false := by
      rw [List.drop_zero, Nat.sub_zero] at hpattern
      rcases head_of_functionPattern hpattern with ⟨rest, hrest⟩ | ⟨rest, hrest⟩
      · exact ⟨'p', by rw [← Nat.add_zero found, ← List.getElem?_drop, ← hrest]; rfl, by decide⟩
      · exact ⟨'f', by rw [← Nat.add_zero found, ← List.getElem?_drop, ← hrest]; rfl, by decide⟩
    have first : itemStart t found ≤ found := (Nat.sub_le _ _).trans (lineStart_le t found)
    have here : (t.drop (itemStart t found))[found - itemStart t found]? = some c := by
      rw [List.getElem?_drop, Nat.add_sub_cancel' first, hc]
    have blanks := length_takeWhile_le here hblank
    dsimp only
    omega
  · cases h

/-! ## Elements of the list -/

/-- Whether the texts stand in the other one, one behind the other. -/
inductive Within : List Text → Text → Prop
  | nil (t : Text) : Within [] t
  | cons (a x : Text) {xs : List Text} {b : Text} (h : Within xs b) :
      Within (x :: xs) (a ++ (x ++ b))

theorem within_cells (front back : Text) (ss : List Cell) :
    Within (ss.map fun s => textOf s.core) (front ++ (textOf (cellPieces ss) ++ back)) := by
  induction ss generalizing front with
  | nil => exact .nil _
  | cons s ss ih =>
    rw [text_cell]
    exact .cons front _ (ih (textOf s.tail))

/-- The pieces around some of the pieces of a text, to which the first element of the list of
definitions belongs that starts with a call. The other elements stand in front of them and
behind. -/
structure FirstCall (call t : Text) (ps ds qs es : List Piece) : Prop where
  pieces_eq : pieces 0 none t = ps ++ (ds ++ qs)
  starts : call <+: textOf es
  elements : ∃ xs ys, definitionTexts t = xs ++ textOf es :: ys ∧ (∀ x ∈ xs, ¬ call <+: x) ∧
    Within xs (textOf ps) ∧ Within ys (textOf qs)

/-- What is cut out with an element: nothing else, or the comma on one side with what stands
between, and spaces behind the comma. -/
inductive Span (es : List Piece) : List Piece → List Piece → Prop
  | alone : Span es [] es
  | behind {gs : List Piece} {spaces : Text} (h : ∀ c ∈ spaces, c = ' ') :
      Span es gs (es ++ (gs ++ .plain ',' :: plains spaces))
  | front {gs : List Piece} : Span es gs (.plain ',' :: (gs ++ es))

/-- What becomes of a text when the first element that starts with a call is taken off its list. The
pieces `lost` are cut out with it. -/
inductive Unlisted (marker call : Text) : List Piece → Text → Text → Prop
  | absent {t : Text} (h : ∀ x ∈ definitionTexts t, ¬ call <+: x) : Unlisted marker call [] t t
  | lines {t t' : Text} {ps ds qs es : List Piece} (h : FirstCall call t ps ds qs es)
      (hitem : ds = es ∨ ∃ gs, (∀ g ∈ gs, IsGap g) ∧ ds = es ++ (gs ++ [.plain ',']))
      (hout : Commented marker (textOf ps) (textOf ds) (textOf qs) t') :
        Unlisted marker call [] t t'
  | cut {t : Text} {ps ds qs es gs : List Piece} (h : FirstCall call t ps ds qs es)
      (hspan : Span es gs ds) (hgs : ∀ g ∈ gs, IsLoose g) :
      Unlisted marker call gs t (textOf ps ++ textOf qs)

/-! ## The list in the text -/

section List

variable (h : InBody t Source.aggregate pre (lead ++ cellPieces ss) post close)
  (hlead : ∀ p ∈ lead, IsLoose p) (hcells : AreCells ss)
include h hlead hcells

theorem unlistDefinition_of_absent (habsent : ∀ s ∈ ss, ¬ callOf function <+: textOf s.core) :
    unlistDefinition t function marker = t := by
  have absent : ∀ e ∈ cellEntries (textOf (pre ++ .plain '[' :: lead)).length ss,
      (Text.stripStart (callOf function) (Text.slice t e.start e.stop)).isSome = false := by
    intro e he
    have written := List.mem_map_of_mem (f := fun e : Entry => Text.slice t e.start e.stop) he
    rw [← h.entries_eq hlead hcells, h.map_slice_entries hlead hcells] at written
    obtain ⟨s, hs, hslice⟩ := List.mem_map.mp written
    rw [Bool.eq_false_iff, Ne, stripStart_isSome_iff, ← hslice]
    exact habsent s hs
  have found := findWithPrevious_eq_none absent none
  rw [callOf] at found
  simp only [unlistDefinition, h.found, h.entries_eq hlead hcells, found]

end List

theorem commented_of_pieces (hp : pieces 0 none t = ps ++ (ds ++ qs))
    (h : commentOut? t (textOf ps).length (textOf (ps ++ ds)).length marker = some t') :
    Commented marker (textOf ps) (textOf ds) (textOf qs) t' := by
  rw [(isCut_of_pieces hp).1, textOf_append ds, textOf_append ps ds] at h
  exact commented_of_commentOut? h

theorem replaceSpan_of_pieces (hp : pieces 0 none t = ps ++ (ds ++ qs)) :
    Text.replaceSpan t (textOf ps).length (textOf (ps ++ ds)).length [] =
      textOf ps ++ textOf qs := by
  rw [(isCut_of_pieces hp).1, textOf_append, textOf_append]
  exact Text.replaceSpan_append _ _ _ _

/-- Blanks at the start of a text are pieces in front of the first one that is no gap. -/
theorem exists_blanks {before : Option Char} {spaces : Text}
    (hblank : ∀ c ∈ spaces, Text.isBlank c = true) (hstart : spaces <+: textOf (ps ++ qs))
    (h : pieces 0 before (textOf (ps ++ qs)) = ps ++ qs) (hq : ∀ p ∈ qs.head?, ¬ IsGap p) :
    ∃ more, ps = plains spaces ++ more := by
  obtain ⟨rest, split⟩ := hstart
  have run := (cuts_blanks hblank).pieces_append before rest
  rw [textOf_plains, split] at run
  rw [run] at h
  rcases List.append_eq_append_iff.mp h with ⟨k, hk, -⟩ | ⟨k, hk, hqs⟩
  · exact ⟨k, hk⟩
  · cases k with
    | nil => exact ⟨[], by simpa using hk.symm⟩
    | cons p k =>
      have gap : IsGap p := isGap_plains hblank p (by rw [hk]; simp)
      exact absurd gap (hq p (by rw [hqs]; rfl))

theorem head_not_gap (h : AreCells ss) (hclose : closes close = true) (post : List Piece) :
    ∀ p ∈ (cellPieces ss ++ .plain close :: post).head?, ¬ IsGap p := by
  cases ss with
  | nil =>
    rintro _ ⟨⟩ hgap
    rw [IsGap, not_blank_of_closes hclose] at hgap
    cases hgap
  | cons s ss =>
    obtain ⟨hcore, -⟩ := h
    obtain ⟨qs, q, hq, -⟩ := hcore.last
    intro p hp hgap
    refine hcore.first p ?_ (.inl hgap)
    rw [hq] at hcore ⊢
    cases qs with
    | nil => simpa [hq] using hp
    | cons r qs => simpa [hq] using hp

/-- How an element goes off a list. The pieces `lines` become comments if they have lines of their
own. Otherwise the pieces `cut` are cut out, and the elements in front of them are the cells
`cs`. -/
structure Taken (t function marker : Text) (front : List Piece) (as : List Cell) (s : Cell)
    (bs : List Cell) (back lines rest cut more gs : List Piece) (cs : List Cell) : Prop where
  lines_eq : pieces 0 none t =
    (front ++ cellPieces as) ++ (lines ++ (rest ++ (cellPieces bs ++ back)))
  isItem : lines = s.core ∨ ∃ gs, (∀ g ∈ gs, IsGap g) ∧ lines = s.core ++ (gs ++ [.plain ','])
  rest_loose : ∀ p ∈ rest, IsLoose p
  cut_eq : pieces 0 none t = (front ++ cellPieces cs) ++ (cut ++ (more ++ (cellPieces bs ++ back)))
  isSpan : Span s.core gs cut
  cut_loose : ∀ p ∈ gs, IsLoose p
  more_loose : ∀ p ∈ more, IsLoose p
  cores : cs.map Cell.core = as.map Cell.core
  cells : AreCells (cs ++ bs)
  apart : bs ≠ [] → ∃ xs c, cut = xs ++ [.plain c] ∧ continuesName c = false
  text_eq : unlistDefinition t function marker =
    (commentOut? t (textOf (front ++ cellPieces as)).length
      (textOf (front ++ cellPieces as ++ lines)).length marker).getD
        (textOf (front ++ cellPieces cs) ++ textOf (more ++ (cellPieces bs ++ back)))

section Element

variable (h : InBody t Source.aggregate pre (lead ++ cellPieces (as ++ s :: bs)) post close)
  (hlead : ∀ p ∈ lead, IsLoose p) (hcells : AreCells (as ++ s :: bs))
  (hstarts : callOf function <+: textOf s.core)
  (hfirst : ∀ a ∈ as, ¬ callOf function <+: textOf a.core)
include h hlead hcells

/-- The pieces around an element, if those in front of it end with the other elements there. -/
theorem firstCall_of_cells (hstarts : call <+: textOf s.core)
    (hfirst : ∀ a ∈ as, ¬ call <+: textOf a.core) {front more back : List Piece} {cs : List Cell}
    (hpieces : pieces 0 none t = (front ++ cellPieces cs) ++
      (ds ++ (more ++ (cellPieces bs ++ back))))
    (hcs : cs.map Cell.core = as.map Cell.core) :
    FirstCall call t (front ++ cellPieces cs) ds (more ++ (cellPieces bs ++ back)) s.core where
  pieces_eq := hpieces
  starts := hstarts
  elements := by
    refine ⟨as.map fun a => textOf a.core, bs.map fun b => textOf b.core, ?_, ?_, ?_, ?_⟩
    · rw [definitionTexts_of_cells h hlead hcells, List.map_append, List.map_cons]
    · intro x hx
      obtain ⟨a, ha, rfl⟩ := List.mem_map.mp hx
      exact hfirst a ha
    · have within := within_cells (textOf front) [] cs
      rw [map_textOf_core, hcs, ← map_textOf_core, List.append_nil, ← textOf_append] at within
      exact within
    · have within := within_cells (textOf more) (textOf back) bs
      rwa [← textOf_append, ← textOf_append] at within

include hstarts hfirst in
theorem unlistDefinition_of_cells : unlistDefinition t function marker =
    (commentOut? t (textOf (pre ++ .plain '[' :: (lead ++ cellPieces as))).length
      (((s.entry (textOf (pre ++ .plain '[' :: (lead ++ cellPieces as))).length).comma.map
        (· + 1)).getD
        (s.entry (textOf (pre ++ .plain '[' :: (lead ++ cellPieces as))).length).stop) marker).getD
      (dropEntry t (cellEntries (textOf (pre ++ .plain '[' :: lead)).length as).getLast?
        (s.entry (textOf (pre ++ .plain '[' :: (lead ++ cellPieces as))).length)) := by
  have place : (textOf (pre ++ .plain '[' :: lead)).length + (textOf (cellPieces as)).length =
      (textOf (pre ++ .plain '[' :: (lead ++ cellPieces as))).length := by
    simp [Piece.text]
    omega
  have text := h.text_cells
  have others : ∀ e ∈ cellEntries (textOf (pre ++ .plain '[' :: lead)).length as,
      (Text.stripStart (callOf function) (Text.slice t e.start e.stop)).isSome = false := by
    intro e he
    have written := List.mem_map_of_mem (f := fun e : Entry => Text.slice
      (textOf (pre ++ .plain '[' :: lead) ++ (textOf (cellPieces as) ++
        (textOf (cellPieces (s :: bs)) ++ close :: textOf post))) e.start e.stop) he
    have whole : t = textOf (pre ++ .plain '[' :: lead) ++ (textOf (cellPieces as) ++
        (textOf (cellPieces (s :: bs)) ++ close :: textOf post)) := by
      conv_lhs => rw [text]
      simp
    rw [map_slice_cellEntries, ← whole] at written
    obtain ⟨a, ha, hslice⟩ := List.mem_map.mp written
    rw [Bool.eq_false_iff, Ne, stripStart_isSome_iff, ← hslice]
    exact hfirst a ha
  have own :
      Text.slice t (s.entry (textOf (pre ++ .plain '[' :: (lead ++ cellPieces as))).length).start
      (s.entry (textOf (pre ++ .plain '[' :: (lead ++ cellPieces as))).length).stop =
        textOf s.core := by
    have whole : t = textOf (pre ++ .plain '[' :: (lead ++ cellPieces as)) ++ (textOf s.core ++
        (textOf (s.tail ++ cellPieces bs) ++ close :: textOf post)) := by
      conv_lhs => rw [text]
      simp
    rw [whole]
    exact Text.slice_length_add _ _ _
  have call : (Text.stripStart (callOf function) (Text.slice t
      (s.entry (textOf (pre ++ .plain '[' :: (lead ++ cellPieces as))).length).start
      (s.entry (textOf (pre ++ .plain '[' :: (lead ++ cellPieces as))).length).stop)).isSome =
        true := by
    rw [own, stripStart_isSome_iff]
    exact hstarts
  have found := findWithPrevious_append others call none
    (cellEntries ((textOf (pre ++ .plain '[' :: (lead ++ cellPieces as))).length +
      (textOf s.pieces).length) bs)
  rw [Option.or_none] at found
  rw [callOf] at found
  simp only [unlistDefinition, h.found, h.entries_eq hlead hcells, cellEntries_append, place,
    cellEntries, found]
  rfl

/-- The pieces that an element with a comma of its own takes along. -/
theorem exists_taken_of_comma (hstarts : callOf function <+: textOf s.core)
    (hfirst : ∀ a ∈ as, ¬ callOf function <+: textOf a.core) {gs rest : List Piece}
    (htail : s.tail = gs ++ .plain ',' :: rest) (hgs : .plain ',' ∉ gs) (hgaps : ∀ g ∈ gs, IsGap g)
    (marker : Text) : ∃ lines rest cut more gs, Taken t function marker
    (pre ++ .plain '[' :: lead) as s
      bs (.plain close :: post) lines rest cut more gs as := by
  obtain ⟨-, -, hloose, -, hbs⟩ := areCells_append_cons.mp hcells
  have behind : ∀ p ∈ rest, IsLoose p := fun p hp => hloose p (by rw [htail]; simp [hp])
  generalize hP : pre ++ .plain '[' :: lead = front
  have ps : pre ++ .plain '[' :: (lead ++ cellPieces as) = front ++ cellPieces as := by
    rw [← hP]
    simp
  have whole : pieces 0 none t = (front ++ cellPieces as) ++ ((s.core ++ (gs ++ [.plain ','])) ++
      (rest ++ (cellPieces bs ++ .plain close :: post))) := by
    rw [h.pieces_eq, ← hP, cellPieces_append, cellPieces_cons, htail]
    simp
  have comma : (s.entry (textOf (front ++ cellPieces as)).length).comma =
      some (textOf (front ++ cellPieces as ++ (s.core ++ gs))).length := by
    rw [Cell.comma_entry htail hgs, textOf_append (front ++ cellPieces as), List.length_append]
  have after : (textOf (front ++ cellPieces as ++ (s.core ++ gs))).length + 1 =
      (textOf (front ++ cellPieces as ++ (s.core ++ (gs ++ [.plain ','])))).length := by
    simp [Piece.text, Nat.add_assoc]
  have upTo := isCut_of_pieces (whole.trans (List.append_assoc _ _ _).symm)
  -- The spaces behind the comma stand in front of the next element.
  generalize hspaces : (textOf (rest ++ (cellPieces bs ++ .plain close :: post))).takeWhile
    (· == ' ') = spaces
  have only : ∀ c ∈ spaces, c = ' ' := fun c hc => by
    rw [← hspaces] at hc
    exact eq_of_beq (List.mem_takeWhile_imp (p := (· == ' ')) hc)
  have blanks : ∀ c ∈ spaces, Text.isBlank c = true := by
    intro c hc
    rw [only c hc]
    decide
  have leads : spaces <+: textOf (rest ++ (cellPieces bs ++ .plain close :: post)) := by
    rw [← hspaces]
    exact List.takeWhile_prefix _
  obtain ⟨more, hmore⟩ := exists_blanks blanks leads upTo.2.2 (head_not_gap hbs h.closes post)
  have cut : pieces 0 none t = (front ++ cellPieces as) ++
      ((s.core ++ (gs ++ .plain ',' :: plains spaces)) ++
        (more ++ (cellPieces bs ++ .plain close :: post))) := by
    rw [whole, hmore]
    simp
  refine ⟨_, rest, _, more, gs, whole, .inr ⟨gs, hgaps, rfl⟩, behind, cut, .behind only,
    fun g hg => .inl (hgaps g hg), fun p hp => behind p (by rw [hmore]; simp [hp]), rfl,
    areCells_append_of_cons hcells, fun _ => ?_, ?_⟩
  · rcases List.eq_nil_or_concat spaces with rfl | ⟨init, c, rfl⟩
    · exact ⟨s.core ++ gs, ',', by simp, by decide⟩
    · obtain rfl := only c (by simp)
      exact ⟨s.core ++ (gs ++ .plain ',' :: plains init), ' ', by simp, by decide⟩
  have length : (textOf (front ++ cellPieces as ++ (s.core ++ (gs ++ [.plain ','])))).length +
      spaces.length = (textOf (front ++ cellPieces as ++
        (s.core ++ (gs ++ .plain ',' :: plains spaces)))).length := by
    simp [Piece.text]
    omega
  have drop : t.drop (textOf (front ++ cellPieces as ++ (s.core ++ (gs ++ [.plain ','])))).length =
      textOf (rest ++ (cellPieces bs ++ .plain close :: post)) := by
    rw [upTo.1, List.drop_left]
  have start : (s.entry (textOf (front ++ cellPieces as)).length).start =
      (textOf (front ++ cellPieces as)).length := rfl
  rw [unlistDefinition_of_cells h hlead hcells hstarts hfirst, ps, comma, Option.map_some,
    Option.getD_some, after]
  simp only [dropEntry, comma, after, drop, hspaces, length, start]
  rw [replaceSpan_of_pieces cut]

/-- The pieces that the last element takes along, if no comma stands behind it. -/
theorem exists_taken_of_last (hstarts : callOf function <+: textOf s.core)
    (hfirst : ∀ a ∈ as, ¬ callOf function <+: textOf a.core) (hnone : .plain ',' ∉ s.tail)
    (marker : Text) : ∃ lines rest cut more gs cs, Taken t function marker
      (pre ++ .plain '[' :: lead) as s bs (.plain close :: post) lines rest cut more gs cs := by
  obtain ⟨hbefore, -, hloose, hcomma, -⟩ := areCells_append_cons.mp hcells
  obtain rfl := hcomma.resolve_right hnone
  generalize hP : pre ++ .plain '[' :: lead = front
  have ps : pre ++ .plain '[' :: (lead ++ cellPieces as) = front ++ cellPieces as := by
    rw [← hP]
    simp
  have whole : pieces 0 none t = (front ++ cellPieces as) ++ (s.core ++
      (s.tail ++ (cellPieces [] ++ .plain close :: post))) := by
    rw [h.pieces_eq, ← hP, cellPieces_append, cellPieces_cons]
    simp
  have comma : (s.entry (textOf (front ++ cellPieces as)).length).comma = none :=
    commaIn_of_not_mem hnone _
  have stop : (s.entry (textOf (front ++ cellPieces as)).length).stop =
      (textOf (front ++ cellPieces as ++ s.core)).length := by
    rw [textOf_append _ s.core, List.length_append]
    rfl
  have start : (s.entry (textOf (front ++ cellPieces as)).length).start =
      (textOf (front ++ cellPieces as)).length := rfl
  have text : unlistDefinition t function marker = _ :=
    unlistDefinition_of_cells h hlead hcells hstarts hfirst
  rw [ps, comma, Option.map_none, Option.getD_none, stop, hP] at text
  rcases List.eq_nil_or_concat as with rfl | ⟨init, r, has⟩
  · refine ⟨_, s.tail, _, s.tail, [], [], whole, .inl rfl, hloose, whole, .alone, nofun, hloose,
      rfl, trivial, fun h => absurd rfl h, text.trans ?_⟩
    simp only [dropEntry, comma, stop, cellEntries, List.getLast?_nil, start]
    rw [replaceSpan_of_pieces whole]
  · rw [List.concat_eq_append] at has
    subst has
    obtain ⟨hcore, hbehind, hcommaBefore⟩ := hbefore r (by simp)
    obtain ⟨gs, rest, htail, hgs, hgaps⟩ :=
      (tail_cases hbehind).resolve_left fun hn => hn.1 hcommaBefore
    have others : ∀ p ∈ rest, IsLoose p := fun p hp => hbehind p (by rw [htail]; simp [hp])
    -- The element before keeps the gaps up to its comma.
    have cut : pieces 0 none t = (front ++ cellPieces (init ++ [⟨r.core, gs⟩])) ++
        ((.plain ',' :: (rest ++ s.core)) ++
          (s.tail ++ (cellPieces [] ++ .plain close :: post))) := by
      rw [whole, cellPieces_append, cellPieces_append, cellPieces_cons, cellPieces_cons, htail]
      simp
    have cells : AreCells ((init ++ [⟨r.core, gs⟩]) ++ []) := by
      rw [List.append_nil, areCells_append_cons]
      exact ⟨fun a ha => hbefore a (by simp [ha]), hcore, fun p hp => .inl (hgaps p hp), .inl rfl,
        trivial⟩
    have place : (textOf front).length + (textOf (cellPieces init)).length +
        (textOf (r.core ++ gs)).length =
          (textOf (front ++ cellPieces (init ++ [⟨r.core, gs⟩]))).length := by
      simp [Nat.add_assoc]
    have last : (textOf (front ++ cellPieces (init ++ [r]) ++ s.core)).length =
        (textOf (front ++ cellPieces (init ++ [⟨r.core, gs⟩]) ++
          (.plain ',' :: (rest ++ s.core)))).length := by
      rw [cellPieces_append, cellPieces_append, cellPieces_cons, cellPieces_cons, htail]
      simp
    have before := Cell.comma_entry htail hgs
      ((textOf front).length + (textOf (cellPieces init)).length)
    rw [place] at before
    refine ⟨_, s.tail, _, s.tail, rest, init ++ [⟨r.core, gs⟩], whole, .inl rfl, hloose, cut,
      .front, others, hloose, by simp, cells, fun h => absurd rfl h, text.trans ?_⟩
    simp only [dropEntry, comma, getLast?_cellEntries_concat, before, Option.getD_some, stop, last]
    rw [replaceSpan_of_pieces cut]

theorem exists_taken (hstarts : callOf function <+: textOf s.core)
    (hfirst : ∀ a ∈ as, ¬ callOf function <+: textOf a.core) (marker : Text) :
    ∃ lines rest cut more gs cs, Taken t function marker (pre ++ .plain '[' :: lead) as s bs
      (.plain close :: post) lines rest cut more gs cs := by
  by_cases hcomma : .plain ',' ∈ s.tail
  · obtain ⟨-, -, hloose, -⟩ := areCells_append_cons.mp hcells
    obtain ⟨gs, rest, htail, hgs, hgaps⟩ := (tail_cases hloose).resolve_left fun hn => hn.1 hcomma
    obtain ⟨lines, rest, cut, more, gs, taken⟩ :=
      exists_taken_of_comma h hlead hcells hstarts hfirst htail hgs hgaps marker
    exact ⟨lines, rest, cut, more, gs, as, taken⟩
  · exact exists_taken_of_last h hlead hcells hstarts hfirst hcomma marker

end Element

/-- A list has no element that starts with a call, or a first one. -/
theorem first_call_cases (function : Text) (ss : List Cell) :
    (∀ s ∈ ss, ¬ callOf function <+: textOf s.core) ∨
      ∃ as s bs, ss = as ++ s :: bs ∧ callOf function <+: textOf s.core ∧
        ∀ a ∈ as, ¬ callOf function <+: textOf a.core := by
  by_cases hcall : ∃ s ∈ ss, callOf function <+: textOf s.core
  · obtain ⟨s, hs, hstarts⟩ := hcall
    obtain ⟨s, as, bs, hfirst, hstarts, rfl, -⟩ := List.exists_of_eraseP
      (p := fun s : Cell => decide (callOf function <+: textOf s.core)) hs (by simpa using hstarts)
    exact .inr ⟨as, s, bs, rfl, by simpa using hstarts, fun a ha => by simpa using hfirst a ha⟩
  · exact .inl fun s hs hp => hcall ⟨s, hs, hp⟩

theorem exists_unlisted (t function marker : Text) : ∃ lost, (∀ p ∈ lost, IsLoose p) ∧
    Unlisted marker (callOf function) lost t (unlistDefinition t function marker) := by
  cases hlist : listIn? t Source.aggregate with
  | none =>
    have same : unlistDefinition t function marker = t := by rw [unlistDefinition, hlist]
    rw [same]
    refine ⟨[], List.forall_mem_nil _, .absent fun x hx => ?_⟩
    rw [definitionTexts, hlist] at hx
    cases hx
  | some place =>
    obtain ⟨pre, body, post, close, h⟩ := exists_inBody hlist
    obtain ⟨lead, ss, rfl, hlead, hcells⟩ := h.exists_cells
    rcases first_call_cases function ss with absent | ⟨as, s, bs, rfl, hstarts, hfirst⟩
    · rw [unlistDefinition_of_absent h hlead hcells absent]
      refine ⟨[], List.forall_mem_nil _, .absent fun x hx => ?_⟩
      rw [definitionTexts_of_cells h hlead hcells] at hx
      obtain ⟨s, hs, rfl⟩ := List.mem_map.mp hx
      exact absent s hs
    · obtain ⟨lines, rest, cut, more, gs, cs, taken⟩ :=
        exists_taken h hlead hcells hstarts hfirst marker
      rw [taken.text_eq]
      cases hout : commentOut? t (textOf (pre ++ .plain '[' :: lead ++ cellPieces as)).length
          (textOf (pre ++ .plain '[' :: lead ++ cellPieces as ++ lines)).length marker with
      | some t' =>
        exact ⟨[], List.forall_mem_nil _,
          .lines (firstCall_of_cells h hlead hcells hstarts hfirst taken.lines_eq rfl) taken.isItem
            (commented_of_pieces taken.lines_eq hout)⟩
      | none =>
        exact ⟨gs, taken.cut_loose,
          .cut (firstCall_of_cells h hlead hcells hstarts hfirst taken.cut_eq taken.cores)
            taken.isSpan
            taken.cut_loose⟩

/-! ## What is lost -/

/-- The removal of an index turns the lines of its function into comments, and takes its call off
the list of definitions. Nothing is deleted there but an element that starts with the call, a comma
next to it, and what stands between the two. -/
theorem lost_of_removeIndex (h : removeIndex t name marker = .ok t') : ∃ start stop u lost,
    functionSpan? t (Source.functionOf name) = some (start, stop) ∧
      Commented marker (t.take start) (Text.slice t start stop) (t.drop stop) u ∧
      commentOut? t start stop marker = some u ∧
      (∀ p ∈ lost, IsLoose p) ∧ Unlisted marker (callOf (Source.functionOf name)) lost u t' := by
  obtain ⟨start, stop, u, hspan, hout, rfl⟩ := removeIndex_eq_ok_iff.mp h
  obtain ⟨hle, hstop⟩ := bounds_of_functionSpan? hspan
  obtain ⟨lost, hloose, hunlisted⟩ := exists_unlisted u (Source.functionOf name) marker
  refine ⟨start, stop, u, lost, hspan, ?_, hout, hloose, hunlisted⟩
  have front : (t.take start).length = start := List.length_take_of_le (hle.trans hstop)
  have upTo : t.take start ++ Text.slice t start stop = t.take stop := by
    have split := List.take_append_drop start (t.take stop)
    rwa [List.take_take, Nat.min_eq_left hle] at split
  have back : (t.take stop).length = stop := List.length_take_of_le hstop
  apply commented_of_commentOut?
  rw [← List.append_assoc, upTo, List.take_append_drop, front, back]
  exact hout

/-- A character stays unless it belongs to an element, is a comma or a space, or is lost with
them. -/
theorem Unlisted.mem_of_mem {c : Char} (h : Unlisted marker call lost t t') (hc : c ∈ t)
    (helements : ∀ x ∈ definitionTexts t, c ∉ x) (hcomma : c ≠ ',') (hspace : c ≠ ' ')
    (hlost : c ∉ textOf lost) : c ∈ t' := by
  cases h with
  | absent => exact hc
  | @lines t t' ps ds qs es h hitem hout =>
    apply hout.sublist.subset
    rw [(isCut_of_pieces h.pieces_eq).1] at hc
    simpa using hc
  | @cut t ps ds qs es gs h hspan hgs =>
    obtain ⟨xs, ys, helement, -⟩ := h.elements
    have own : c ∉ textOf es := helements _ (by rw [helement]; simp)
    have gone : c ∉ textOf ds := by
      cases hspan with
      | alone => exact own
      | @behind gs spaces hspaces =>
        have blank : c ∉ spaces := fun hm => hspace (hspaces c hm)
        simp [own, hlost, Piece.text, hcomma, blank]
      | front => simp [own, hlost, Piece.text, hcomma]
    rw [(isCut_of_pieces h.pieces_eq).1] at hc
    simpa [gone] using hc

/-- A file in which a comment stands between an element and the comma before it. -/
def remarked : Text := "fn f() \x7b\x7d\nfn definitions() \x7b\n    vec![m(), /*~*/ f()]\n\x7d\n"

def unremarked : Text := "// R\n// fn f() \x7b\x7d\nfn definitions() \x7b\n    vec![m()]\n\x7d\n"

theorem removeIndex_remarked : removeIndex remarked "f" "R" = .ok unremarked := by decide +kernel

/-- The comment in front of the call is lost with it. -/
theorem lost_of_removeIndex_remarked : removeIndex remarked "f" "R" = .ok unremarked ∧
    ∃ start stop u lost, functionSpan? remarked (Source.functionOf "f") = some (start, stop) ∧
      Commented "R" (remarked.take start) (Text.slice remarked start stop) (remarked.drop stop) u ∧
      commentOut? remarked start stop "R" = some u ∧
      (∀ p ∈ lost, IsLoose p) ∧ Unlisted "R" (callOf (Source.functionOf "f")) lost u unremarked :=
  ⟨removeIndex_remarked, lost_of_removeIndex removeIndex_remarked⟩

/-- Not only blanks are lost with the element and its comma. -/
theorem not_blank_of_lost : ¬∀ (t name marker t' : Text), removeIndex t name marker = .ok t' →
    ∃ start stop u lost, functionSpan? t (Source.functionOf name) = some (start, stop) ∧
      commentOut? t start stop marker = some u ∧
      (∀ p ∈ lost, ∃ c, p = .plain c ∧ Text.isBlank c = true) ∧
      Unlisted marker (callOf (Source.functionOf name)) lost u t' := by
  intro h
  obtain ⟨start, stop, u, lost, hspan, hout, hlost, hunlisted⟩ :=
    h remarked "f" "R" unremarked removeIndex_remarked
  have span : functionSpan? remarked (Source.functionOf "f") = some (0, 9) := by decide +kernel
  obtain ⟨rfl, rfl⟩ := Prod.mk.inj (Option.some.inj (span.symm.trans hspan))
  have facts : ∀ v, commentOut? remarked 0 9 "R" = some v →
      '~' ∈ v ∧ ∀ x ∈ definitionTexts v, '~' ∉ x := by decide +kernel
  obtain ⟨here, helements⟩ := facts u hout
  have blank : '~' ∉ textOf lost := by
    intro hm
    obtain ⟨p, hp, hm⟩ := List.mem_flatMap.mp hm
    obtain ⟨c, rfl, hc⟩ := hlost p hp
    obtain rfl := List.mem_singleton.mp hm
    revert hc
    decide
  have stays := hunlisted.mem_of_mem here helements (by decide) (by decide) blank
  exact absurd stays (by decide)

end Merge

end SchemaDrift
