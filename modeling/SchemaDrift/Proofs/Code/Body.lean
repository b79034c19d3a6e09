import SchemaDrift.Proofs.Code.Cells
import SchemaDrift.Proofs.Code.Listed

namespace SchemaDrift.Code

/-!
# The list in the body of a function

A list that is found in the body of a function is found in the same place if something else stands
between its brackets.
-/

variable {before : Option Char} {c close : Char} {t t' name u : Text} {p : Piece}
  {pre post body body' lead ks ls : List Piece} {ss : List Cell}

/-- The pieces around the list in the body of a function, and those inside it. -/
structure InBody (t name : Text) (pre body post : List Piece) (close : Char) : Prop where
  pieces_eq : pieces 0 none t = pre ++ .plain '[' :: (body ++ .plain close :: post)
  found : listIn? t name = some ((textOf pre).length,
    (textOf pre).length + 1 + (textOf body).length)
  isPaired : IsPaired body
  closes : closes close = true

theorem exists_of_listIn? {opening closing : Nat} (h : listIn? t name = some (opening, closing)) :
    ∃ start i stop found, function? t name = some start ∧
      (itemsFrom t start).find? (·.mark == '\x7b') = some i ∧
      matchingClose? t i.start = some stop ∧ find? listPattern t i.start = some found ∧
      found.2 ≤ stop ∧ brackets? t found = some (opening, closing) := by
  obtain ⟨start, hstart, h⟩ := Option.bind_eq_some_iff.mp h
  obtain ⟨i, hi, h⟩ := Option.bind_eq_some_iff.mp h
  obtain ⟨stop, hstop, h⟩ := Option.bind_eq_some_iff.mp h
  obtain ⟨found, hfilter, hbrackets⟩ := Option.bind_eq_some_iff.mp h
  obtain ⟨hfound, hle⟩ := Option.filter_eq_some_iff.mp hfilter
  exact ⟨start, i, stop, found, hstart, hi, hstop, hfound, of_decide_eq_true hle, hbrackets⟩

theorem exists_inBody {opening closing : Nat} (h : listIn? t name = some (opening, closing)) :
    ∃ pre body post close, InBody t name pre body post close := by
  obtain ⟨start, i, stop, found, -, -, -, hfound, -, hbrackets⟩ := exists_of_listIn? h
  obtain ⟨pre, body, close, post, hpieces, hbody, hclose, -, -, -, rfl, rfl⟩ :=
    exists_body (fun _ _ _ hr => exists_of_listStart? hr) hfound hbrackets
  exact ⟨pre, body, post, close, hpieces, h, hbody, hclose⟩

namespace InBody

theorem text_eq (h : InBody t name pre body post close) :
    t = textOf (pre ++ [.plain '[']) ++ (textOf body ++ close :: textOf post) := by
  have split : pieces 0 none t = (pre ++ [.plain '[']) ++ (body ++ .plain close :: post) := by
    rw [h.pieces_eq]
    simp
  rw [(isCut_of_pieces split).1]
  simp [Piece.text]

theorem isGenuine (h : InBody t name pre body post close) : ∀ p ∈ body, p.IsGenuine :=
  fun p hp => isGenuine_of_mem (t := t) (by rw [h.pieces_eq]; simp [hp])

/-- The list has cells. -/
theorem exists_cells (h : InBody t name pre body post close) :
    ∃ lead ss, body = lead ++ cellPieces ss ∧ (∀ p ∈ lead, IsLoose p) ∧ AreCells ss :=
  Code.exists_cells h.isGenuine h.isPaired

theorem entries_eq (h : InBody t name pre (lead ++ cellPieces ss) post close)
    (hlead : ∀ p ∈ lead, IsLoose p) (hss : AreCells ss) :
    entries t (textOf pre).length
        ((textOf pre).length + 1 + (textOf (lead ++ cellPieces ss)).length) =
      cellEntries (textOf (pre ++ .plain '[' :: lead)).length ss := by
  have place : (textOf (pre ++ .plain '[' :: lead)).length =
      (textOf pre).length + 1 + (textOf lead).length := by
    simp [Piece.text]
    omega
  rw [entries_of_pieces h.pieces_eq, itemsOf_append, entriesOf_loose hlead, entriesOf_cells hss,
    place]

theorem text_cells (h : InBody t name pre (lead ++ cellPieces ss) post close) :
    t = textOf (pre ++ .plain '[' :: lead) ++
      (textOf (cellPieces ss) ++ close :: textOf post) := by
  conv_lhs => rw [h.text_eq]
  simp [Piece.text]

/-- The elements of the list are those of its cells. -/
theorem map_slice_entries (h : InBody t name pre (lead ++ cellPieces ss) post close)
    (hlead : ∀ p ∈ lead, IsLoose p) (hss : AreCells ss) :
    (entries t (textOf pre).length
        ((textOf pre).length + 1 + (textOf (lead ++ cellPieces ss)).length)).map
          (fun e => Text.slice t e.start e.stop) = ss.map fun s => textOf s.core := by
  rw [h.entries_eq hlead hss, ← map_slice_cellEntries (textOf (pre ++ .plain '[' :: lead))
    (close :: textOf post) ss, ← h.text_cells]

end InBody

/-! ## The function around a list -/

theorem skipBlanks?_append_cons (hc : Text.isBlank c = false) (u v : Text) :
    Text.skipBlanks? (u ++ c :: v) = (Text.skipBlanks? u).map (· ++ c :: v) := by
  cases u with
  | nil => simp [Text.skipBlanks?, hc]
  | cons d u =>
    rw [List.cons_append, Text.skipBlanks?, Text.skipBlanks?, trimStart_append_cons hc]
    split <;> rfl

/-- A visibility ends in front of the text behind it, if its bracket can close there. -/
theorem skipVisibility?_append_cons (hu : ')' ∈ u) (v : Text) :
    skipVisibility? (u ++ '[' :: v) = (skipVisibility? u).map (· ++ '[' :: v) := by
  have word := stripStart_append_cons (show '[' ∉ ("pub" : Text) by decide) u v
  unfold skipVisibility?
  rw [word]
  cases hpub : Text.stripStart "pub" u with
  | none => rfl
  | some rest =>
    obtain rfl := Text.stripStart_eq_some_iff.mp hpub
    have inside : ')' ∈ rest := (List.mem_append.mp hu).resolve_left (by decide)
    obtain ⟨d, inner, rfl⟩ := List.exists_cons_of_ne_nil (List.ne_nil_of_mem inside)
    simp only [Option.map_some, List.cons_append]
    by_cases hd : d = '('
    · subst hd
      have closes : ')' ∈ inner := by simpa using inside
      obtain ⟨a, b, rfl, ha⟩ := List.eq_append_cons_of_mem closes
      have drop (z : Text) : (a ++ ')' :: z).dropWhile (· != ')') = ')' :: z := by
        have all : ∀ e ∈ a, (e != ')') = true := fun e he => by
          simpa using fun hx : e = ')' => ha (hx ▸ he)
        rw [List.dropWhile_append_of_pos all]
        simp
      simp only [List.append_assoc, List.cons_append, drop]
      exact skipBlanks?_append_cons (by decide) b v
    · split
      · rename_i heq
        exact absurd (List.cons.inj heq).1 hd
      · split
        · rename_i heq
          exact absurd (List.cons.inj heq).1 hd
        · exact skipBlanks?_append_cons (by decide) (d :: inner) v

theorem functionPattern_append_cons (hname : '[' ∉ name) (hu : ')' ∈ u) (v : Text) :
    functionPattern name before (u ++ '[' :: v) =
      (functionPattern name before u).map (· ++ '[' :: v) := by
  unfold functionPattern
  split
  · rfl
  · rw [skipVisibility?_append_cons hu]
    cases skipVisibility? u with
    | none => rfl
    | some rest =>
      simp only [Option.map_some, Option.bind_eq_bind, Option.bind_some,
        stripStart_append_cons (show '[' ∉ ("fn" : Text) by decide)]
      cases Text.stripStart "fn" rest with
      | none => rfl
      | some rest =>
        simp only [Option.map_some, Option.bind_some,
          skipBlanks?_append_cons (show Text.isBlank '[' = false by decide)]
        cases Text.skipBlanks? rest with
        | none => rfl
        | some rest =>
          simp only [Option.map_some, Option.bind_some, stripStart_append_cons hname]
          cases Text.stripStart name rest with
          | none => rfl
          | some rest =>
            simp only [Option.map_some, Option.bind_some,
              trimStart_append_cons (show Text.isBlank '[' = false by decide)]
            exact stripStart_append_cons (show '[' ∉ ("(" : Text) by decide) _ v

theorem endsAt_listPattern : EndsAt listPattern '[' := fun _ u v => listStart?_append_cons u v

theorem text_eq_of_bracket {rest : List Piece}
    (h : pieces 0 none t = pre ++ .plain '[' :: rest) :
    t = textOf pre ++ '[' :: textOf rest := by
  rw [(isCut_of_pieces h).1]
  simp [Piece.text]

section Exchange

variable {start : Nat} {rest rest' : List Piece} {i : Item}
  (h : pieces 0 none t = pre ++ .plain '[' :: rest)
  (h' : pieces 0 none t' = pre ++ .plain '[' :: rest')
include h h'

theorem isCode_exchange {place : Nat} (hle : place ≤ (textOf pre).length) :
    isCode t place = isCode t' place := (isCode_eq h hle).trans (isCode_eq h' hle).symm

theorem function?_exchange (hname : '[' ∉ name) (hfunction : function? t name = some start)
    (hle : start ≤ (textOf pre).length) (hhead : ')' ∈ (textOf pre).drop start) :
    function? t' name = some start := by
  obtain ⟨⟨first, stop⟩, hfound, rfl⟩ := Option.map_eq_some_iff.mp hfunction
  have pattern : ∀ before a x v, textOf pre = a ++ x → 0 + a.length ≤ first →
      functionPattern name before (x ++ '[' :: v) =
        (functionPattern name before (x ++ ['['])).map (· ++ v) := by
    intro before a x v hsplit hfirst
    have inside : ')' ∈ x := by
      rw [hsplit, List.drop_append, List.drop_eq_nil_of_le (by omega), List.nil_append] at hhead
      exact List.mem_of_mem_drop hhead
    rw [functionPattern_append_cons hname inside, functionPattern_append_cons hname inside,
      Option.map_map]
    congr 1
    funext r
    simp
  have search : findFrom (functionPattern name) (isCode t) 0 0 none
      (textOf pre ++ '[' :: textOf rest) = some (first, stop) := by
    rw [← text_eq_of_bracket h]
    exact hfound
  have again := findFrom_exchange pattern (fun i _ hi => isCode_exchange h h' (by omega)) (by omega)
    search (textOf rest')
  rw [← text_eq_of_bracket h'] at again
  exact Option.map_eq_some_iff.mpr ⟨_, again, rfl⟩

/-- An item in front of the bracket is found again. -/
theorem find?_itemsFrom_exchange {p : Item → Bool} (hfound : (itemsFrom t start).find? p = some i)
    (hlt : i.start < (textOf pre).length) : (itemsFrom t' start).find? p = some i := by
  have split {t : Text} {rest : List Piece} (h : pieces 0 none t = pre ++ rest) :
      itemsFrom t start = (itemsOf 0 pre).filter (fun i => decide (start ≤ i.start)) ++
        (itemsOf (textOf pre).length rest).filter (fun i => decide (start ≤ i.start)) := by
    rw [itemsFrom, items, h, itemsOf_append, Nat.zero_add, List.filter_append]
  rw [split h, List.find?_append] at hfound
  rw [split h', List.find?_append]
  cases hfirst : ((itemsOf 0 pre).filter fun i => decide (start ≤ i.start)).find? p with
  | some j =>
    rw [hfirst] at hfound
    exact hfound
  | none =>
    rw [hfirst, Option.none_or] at hfound
    have later :=
      (bounds_of_mem_itemsOf (List.mem_filter.mp (List.mem_of_find?_eq_some hfound)).1).1
    omega

theorem find?_exchange {pattern : Pattern} {place : Nat} {found : Nat × Nat}
    (hpattern : EndsAt pattern '[') (hfound : find? pattern t place = some found)
    (hle : found.1 ≤ (textOf pre).length) (hplace : place ≤ (textOf pre).length) :
    find? pattern t' place = some found := by
  have drop {t : Text} {rest : List Piece} (h : pieces 0 none t = pre ++ .plain '[' :: rest) :
      t.drop place = (textOf pre).drop place ++ '[' :: textOf rest := by
    conv_lhs => rw [text_eq_of_bracket h]
    rw [List.drop_append_of_le_length hplace]
  have take {t : Text} {rest : List Piece} (h : pieces 0 none t = pre ++ .plain '[' :: rest) :
      t.take place = (textOf pre).take place := by
    conv_lhs => rw [text_eq_of_bracket h]
    rw [List.take_append_of_le_length hplace]
  rw [find?, drop h, take h] at hfound
  rw [find?, drop h', take h']
  have length : place + ((textOf pre).drop place).length = (textOf pre).length := by
    rw [List.length_drop]
    omega
  exact findFrom_exchange (fun before _ x v _ _ => hpattern before x v)
    (fun i _ hi => isCode_exchange h h' (by omega)) (by omega) hfound _

end Exchange

/-- Pieces of a closed body do not close a bracket in front of it. -/
theorem level_ne_of_isPaired (h : IsPaired (ks ++ ls)) (depth : Nat) :
    level (depth + 1) (marks ks) ≠ some 0 := by
  rw [IsPaired, marks_append, level_append] at h
  obtain ⟨d, hd, -⟩ := Option.bind_eq_some_iff.mp h
  have raised := level_add hd (depth + 1)
  rw [Nat.zero_add] at raised
  rw [raised]
  simp

theorem level_brackets (hb : IsPaired body) (hc : closes close = true) (depth : Nat)
    (qs : List Piece) : level depth (marks (.plain '[' :: (body ++ .plain close :: qs))) =
      level depth (marks qs) := by
  have inside : level (depth + 1) (marks body) = some (depth + 1) := by
    have raised := level_add hb (depth + 1)
    rwa [Nat.zero_add] at raised
  have ends : level (depth + 1) (close :: marks qs) = level depth (marks qs) := by
    simp [level, hc, not_opens_of_closes hc]
  have whole : marks (.plain '[' :: (body ++ .plain close :: qs)) =
      '[' :: (marks body ++ close :: marks qs) := by
    rw [← List.singleton_append, marks_append, marks_append, ← List.singleton_append (l := qs),
      marks_append]
    rfl
  have opened : level depth ('[' :: (marks body ++ close :: marks qs)) =
      level (depth + 1) (marks body ++ close :: marks qs) := rfl
  rw [whole, opened, level_append, inside, Option.bind_some, ends]

/-- A closed list can be left out. -/
theorem isPaired_brackets {ps qs : List Piece} (hb : IsPaired body) (hc : closes close = true) :
    IsPaired (ps ++ .plain '[' :: (body ++ .plain close :: qs)) ↔ IsPaired (ps ++ qs) := by
  have same (d : Nat) := level_brackets hb hc d qs
  rw [IsPaired, IsPaired, marks_append, marks_append, level_append, level_append]
  simp only [same]

/-- What closes a bracket in front of a list stands behind the list. -/
theorem exists_of_closed_behind {qs xs rest : List Piece}
    (h : qs ++ .plain '[' :: (body ++ .plain close :: post) = xs ++ p :: rest) (hb : IsPaired body)
    (hxs : IsPaired xs) (hlt : (textOf qs).length < (textOf xs).length) : ∃ zs,
      xs = qs ++ .plain '[' :: (body ++ .plain close :: zs) ∧ post = zs ++ p :: rest := by
  rcases append_eq_append_cons_cases h.symm with ⟨ks, rfl, hks⟩ | ⟨ks, rfl, -⟩
  · rw [IsPaired, marks_append, level_append] at hxs
    obtain ⟨d, -, hopen⟩ := Option.bind_eq_some_iff.mp hxs
    rcases append_eq_append_cons_cases hks.symm with ⟨zs, rfl, hzs⟩ | ⟨ls, rfl, -⟩
    · exact ⟨zs, rfl, hzs⟩
    · exact absurd hopen (level_ne_of_isPaired hb d)
  · simp only [textOf_append, List.length_append] at hlt
    omega

/-- The bracket that closes the block around a list stands behind the list. -/
theorem exists_matchingClose?_exchange {ps qs : List Piece} {last stop : Nat}
    (h : pieces 0 none t = ps ++ .plain '\x7b' ::
      (qs ++ .plain '[' :: (body ++ .plain close :: post)))
    (h' : pieces 0 none t' = ps ++ .plain '\x7b' ::
      (qs ++ .plain '[' :: (body' ++ .plain close :: post)))
    (hb : IsPaired body) (hb' : IsPaired body') (hc : closes close = true)
    (hlast : last = (textOf (ps ++ .plain '\x7b' :: qs)).length + 1)
    (hstop : matchingClose? t (textOf ps).length = some stop) (hle : last ≤ stop) :
    ∃ stop', matchingClose? t' (textOf ps).length = some stop' ∧ last ≤ stop' := by
  have inside : closeFrom ((0 : Nat) + 1) (itemsOf ((textOf ps).length + 1)
      (qs ++ .plain '[' :: (body ++ .plain close :: post))) = some stop := by
    rw [matchingClose?, itemsFrom_of_pieces h] at hstop
    exact hstop
  obtain ⟨xs, p, rest, hsplit, hclosed, ⟨c, hmark, hcloses⟩, rfl⟩ := exists_of_closeFrom inside
  have length : (textOf qs).length < (textOf xs).length := by
    simp only [textOf_append, textOf_cons, Piece.text, List.length_append, List.length_singleton]
      at hlast
    omega
  obtain ⟨zs, rfl, rfl⟩ := exists_of_closed_behind hsplit hb hclosed length
  have paired : IsPaired (qs ++ .plain '[' :: (body' ++ .plain close :: zs)) :=
    (isPaired_brackets hb' hc).mpr ((isPaired_brackets hb hc).mp hclosed)
  have split : pieces 0 none t = (ps ++ .plain '\x7b' ::
      (qs ++ .plain '[' :: (body ++ .plain close :: zs))) ++ p :: rest := by
    rw [h]
    simp
  obtain rfl := eq_plain_of_closes split hmark hcloses
  have whole : pieces 0 none t' = ps ++ .plain '\x7b' ::
      ((qs ++ .plain '[' :: (body' ++ .plain close :: zs)) ++ .plain c :: rest) := by
    rw [h']
    simp
  refine ⟨_, matchingClose?_of_pieces whole rfl hcloses paired, ?_⟩
  simp only [hlast, textOf_append, textOf_cons, Piece.text, List.length_append,
    List.length_singleton]
  omega

/-- The literal of a list stands in front of its bracket. -/
theorem lt_of_find?_listPattern {place first last : Nat}
    (h : find? listPattern t place = some (first, last)) : first < last - 1 := by
  obtain ⟨-, b, r, hpattern, hlast⟩ := exists_of_findFrom h
  obtain ⟨rest, hword, hopen⟩ := Option.bind_eq_some_iff.mp hpattern
  have bracket : Text.trimStart rest = '[' :: r := Text.stripStart_eq_some_iff.mp hopen
  have shorter : (Text.trimStart rest).length ≤ rest.length := (List.dropWhile_suffix _).length_le
  have word : (("vec!" : Text) ++ rest).length = rest.length + 4 := by
    rw [List.length_append, Nat.add_comm]
    rfl
  rw [Text.stripStart_eq_some_iff.mp hword, word] at hlast
  rw [bracket, List.length_cons] at shorter
  omega

/-- A brace in front of some pieces of a text is a piece of its own. -/
theorem exists_brace {rest : List Piece} {i : Item} (h : pieces 0 none t = pre ++ rest)
    (hi : i ∈ items t) (hmark : i.mark = '\x7b') (hlt : i.start < (textOf pre).length) :
    ∃ ps qs, pre = ps ++ .plain '\x7b' :: qs ∧ i.start = (textOf ps).length := by
  have held : i ∈ itemsOf 0 pre := by
    rw [items, h, itemsOf_append, Nat.zero_add] at hi
    refine (List.mem_append.mp hi).resolve_right fun behind => ?_
    have := (bounds_of_mem_itemsOf behind).1
    omega
  obtain ⟨ps, p, qs, rfl, hpiece, hplace, -⟩ := exists_of_mem_itemsOf held
  have split : pieces 0 none t = (ps ++ [p]) ++ (qs ++ rest) := by
    rw [h]
    simp
  rw [hmark] at hpiece
  obtain rfl := eq_plain_of_mark? (isCut_append_iff.mp (isCut_of_pieces split).2.1).2 hpiece
    (by decide)
  exact ⟨ps, qs, rfl, by rw [hplace, Nat.zero_add]⟩

/-- Another closed body between the same brackets is found in the same place, if the bracket of the
function's parameters is closed in front of it. -/
theorem InBody.exchange (h : InBody t name pre body post close) (hname : '[' ∉ name)
    (hhead : ∀ start, function? t name = some start → ')' ∈ (textOf pre).drop start)
    (hp : pieces 0 none t' = pre ++ .plain '[' :: (body' ++ .plain close :: post))
    (hb : IsPaired body') : InBody t' name pre body' post close where
  pieces_eq := hp
  isPaired := hb
  closes := h.closes
  found := by
    obtain ⟨start, i, stop, ⟨first, last⟩, hstart, hi, hstop, hfound, hle, hbrackets⟩ :=
      exists_of_listIn? h.found
    have opening : last - 1 = (textOf pre).length := by
      obtain ⟨place, -, hplace⟩ := Option.map_eq_some_iff.mp hbrackets
      exact congrArg Prod.fst hplace
    -- The literal stands in front of its bracket, and the body of the function in front of both.
    have literal := lt_of_find?_listPattern hfound
    have inside : i.start ≤ first := le_of_findFrom hfound
    obtain ⟨hitem, hfrom⟩ := List.mem_filter.mp (List.mem_of_find?_eq_some hi)
    have later : start ≤ i.start := of_decide_eq_true hfrom
    have brace : i.mark = '\x7b' := by simpa using List.find?_some hi
    have front : i.start < (textOf pre).length := by omega
    obtain ⟨ps, qs, rfl, hplace⟩ := exists_brace h.pieces_eq hitem brace front
    have whole := h.pieces_eq
    have whole' := hp
    rw [List.append_assoc, List.cons_append] at whole whole'
    rw [hplace] at hstop
    obtain ⟨stop', hstop', hle'⟩ :=
      exists_matchingClose?_exchange whole whole' h.isPaired hb h.closes (by omega) hstop hle
    have front' : (textOf (ps ++ .plain '\x7b' :: qs)).length = last - 1 := opening.symm
    have found' := find?_exchange h.pieces_eq hp endsAt_listPattern hfound (by dsimp only; omega)
      (by omega)
    have start' := function?_exchange h.pieces_eq hp hname hstart (by omega) (hhead start hstart)
    have item' := find?_itemsFrom_exchange h.pieces_eq hp hi front
    have list' := matchingClose?_of_pieces hp rfl h.closes hb
    rw [hplace] at found'
    have brackets : brackets? t' (first, last) = some ((textOf (ps ++ .plain '\x7b' :: qs)).length,
        (textOf (ps ++ .plain '\x7b' :: qs)).length + 1 + (textOf body').length) := by
      rw [brackets?, opening, list']
      rfl
    simp only [listIn?, Option.bind_eq_bind, start', item', Option.bind_some, hplace,
      hstop', found']
    rw [Option.filter_some, if_pos (decide_eq_true hle')]
    exact brackets

end SchemaDrift.Code
