import SchemaDrift.Proofs.Merge.Unlisting

namespace SchemaDrift

/-!
# Elements that stay on the list

Where a function is taken off the list of definitions, the list has its other elements, as they are
written. A text can be cut at its elements if none of them ends in the middle of a literal or a
comment.
-/

namespace Code

variable {before before' : Option Char} {t x : Text} {p : Piece} {v : Text}
  {ps qs ds es ins lead ls xs : List Piece} {r s : Cell} {as bs ss : List Cell}

/-! ## Cells with other gaps -/

theorem isPaired_cells (hlead : ∀ p ∈ lead, IsLoose p) (h : AreCells ss) :
    IsPaired (lead ++ cellPieces ss) := by
  rw [IsPaired, level_loose hlead]
  induction ss with
  | nil => rfl
  | cons s ss ih =>
    obtain ⟨hcore, htail, -, hrest⟩ := h
    have closed : level 0 (marks s.core) = some 0 := hcore.closed
    rw [cellPieces_cons, marks_append, level_append, closed, Option.bind_some, level_loose htail]
    exact ih hrest

theorem areCells_replace (h : AreCells (as ++ s :: bs)) (hcore : r.core = s.core)
    (hloose : ∀ p ∈ r.tail, IsLoose p) (hcomma : .plain ',' ∈ s.tail → .plain ',' ∈ r.tail) :
    AreCells (as ++ r :: bs) := by
  rw [areCells_append_cons] at h ⊢
  obtain ⟨hfront, hown, -, hbehind, hrest⟩ := h
  exact ⟨hfront, hcore ▸ hown, hloose, hbehind.imp_right hcomma, hrest⟩

/-- Loose pieces between cells belong to the cell in front of them. -/
theorem exists_cells_loose (hlead : ∀ p ∈ lead, IsLoose p) (h : AreCells (as ++ bs))
    (hls : ∀ p ∈ ls, IsLoose p) : ∃ lead' ss,
      lead ++ (cellPieces as ++ (ls ++ cellPieces bs)) = lead' ++ cellPieces ss ∧
        (∀ p ∈ lead', IsLoose p) ∧ AreCells ss ∧ ss.map Cell.core = (as ++ bs).map Cell.core := by
  rcases List.eq_nil_or_concat as with rfl | ⟨init, r, rfl⟩
  · exact ⟨lead ++ ls, bs, by simp, List.forall_mem_append.mpr ⟨hlead, hls⟩, h, rfl⟩
  · rw [List.concat_eq_append, List.append_assoc] at h
    have own : ∀ p ∈ r.tail, IsLoose p := (areCells_append_cons.mp h).2.2.1
    refine ⟨lead, init ++ ⟨r.core, r.tail ++ ls⟩ :: bs, by simp, hlead, ?_, by simp⟩
    exact areCells_replace h rfl (List.forall_mem_append.mpr ⟨own, hls⟩) fun hm =>
      List.mem_append_left _ hm

/-- Blanks at the end stand behind the last element, which does not end with one. -/
theorem exists_tail_of_blanks (hcore : IsCore es) (hv : ∀ c ∈ v, Text.isBlank c = true)
    (h : ps ++ (es ++ ls) = xs ++ plains v) :
    ∃ ls', ls = ls' ++ plains v ∧ xs = ps ++ (es ++ ls') := by
  rw [← List.append_assoc] at h
  rcases List.append_eq_append_iff.mp h with ⟨k, hxs, rfl⟩ | ⟨k, hfront, hk⟩
  · exact ⟨k, rfl, by rw [hxs, List.append_assoc]⟩
  · rcases List.eq_nil_or_concat k with rfl | ⟨k, p, rfl⟩
    · exact ⟨[], by simpa using hk.symm, by simpa using hfront.symm⟩
    · obtain ⟨qs, q, rfl, hq⟩ := hcore.last
      rw [List.concat_eq_append, ← List.append_assoc, ← List.append_assoc] at hfront
      obtain rfl := List.singleton_inj.mp (List.append_inj' hfront rfl).2
      exact absurd (isGap_plains hv q (by rw [hk]; simp)) hq

/-- Without the blanks at their end, cells have the same elements. -/
theorem exists_cells_of_blanks (hlead : ∀ p ∈ lead, IsLoose p) (h : AreCells (as ++ bs))
    (hv : ∀ c ∈ v, Text.isBlank c = true) (hsplit : lead ++ cellPieces as = xs ++ plains v) :
    ∃ lead' as', xs = lead' ++ cellPieces as' ∧ (∀ p ∈ lead', IsLoose p) ∧ AreCells (as' ++ bs) ∧
      as'.map Cell.core = as.map Cell.core := by
  rcases List.eq_nil_or_concat as with rfl | ⟨init, r, rfl⟩
  · rw [cellPieces_nil, List.append_nil] at hsplit
    exact ⟨xs, [], by simp, fun p hp => hlead p (by rw [hsplit]; simp [hp]), h, rfl⟩
  · rw [List.concat_eq_append] at hsplit
    rw [List.concat_eq_append, List.append_assoc] at h
    obtain ⟨-, hcore, htail, -⟩ := areCells_append_cons.mp h
    have whole : (lead ++ cellPieces init) ++ (r.core ++ r.tail) = xs ++ plains v := by
      rw [← hsplit]
      simp
    obtain ⟨tail, hr, rfl⟩ := exists_tail_of_blanks hcore hv whole
    have comma : .plain ',' ∈ r.tail → .plain ',' ∈ tail := by
      intro hm
      rw [hr] at hm
      refine (List.mem_append.mp hm).resolve_right fun hc => ?_
      have blank : Text.isBlank ',' = true := isGap_plains hv _ hc
      cases blank
    refine ⟨lead, init ++ [⟨r.core, tail⟩], by simp, hlead, ?_, by simp⟩
    rw [List.append_assoc]
    exact areCells_replace h rfl (fun p hp => htail p (by rw [hr]; simp [hp])) comma

/-- Blanks behind a bracket are not in front of it. -/
theorem exists_of_bracket_append {c : Char} (hc : Text.isBlank c = false)
    (hv : ∀ d ∈ v, Text.isBlank d = true) (h : ps ++ .plain c :: qs = ds ++ plains v) :
    ∃ xs, ds = ps ++ .plain c :: xs ∧ qs = xs ++ plains v := by
  have absent : .plain c ∉ plains v := by
    intro hm
    obtain ⟨d, hd, he⟩ := List.mem_map.mp hm
    rw [← Piece.plain.inj he, hv d hd] at hc
    cases hc
  refine (append_eq_append_cons_cases h.symm).resolve_right ?_
  rintro ⟨ks, -, hk⟩
  exact absent (by simp [hk])

/-! ## Pieces around a cut -/

/-- Pieces do not depend on a character before them that continues no name. -/
theorem pieces_of_continues (h : before.any continuesName = before'.any continuesName) (t : Text) :
    pieces 0 before t = pieces 0 before' t := by
  cases t with
  | nil => rfl
  | cons c cs =>
    have same : literal? before (c :: cs) = literal? before' (c :: cs) := by
      unfold literal?
      simp only [h]
    have starts : first before c cs = first before' c cs := by rw [first, first, same]
    simp only [pieces, starts]

/-- Between two of its pieces a text can be given other ones. -/
theorem pieces_exchange (h : pieces 0 none t = (ps ++ [p]) ++ (ds ++ qs)) (hp : p.Seals)
    (hquotes : NoLooseQuote (pieces 0 none t)) (hne : textOf (ds ++ qs) ≠ []) (hins : Cuts ins)
    (hhead : (textOf ins ++ textOf qs).head? ≠ some '\'')
    (hqs : pieces 0 (lastOf (lastOf none (textOf (ps ++ [p]))) (textOf ins)) (textOf qs) = qs) :
    pieces 0 none (textOf (ps ++ [p]) ++ (textOf ins ++ textOf qs)) =
      (ps ++ [p]) ++ (ins ++ qs) := by
  have quotes : NoLooseQuote (ps ++ [p]) := hquotes.of_infix (by
    rw [h]
    exact (List.prefix_append _ _).isInfix)
  rw [pieces_textOf_append ((isCut_of_pieces h).2.1.exchange hp quotes hne hhead),
    hins.pieces_append, hqs]

/-- A loose piece that ends no line can stand in front of any text. -/
theorem seals_of_loose (h : IsCut before [p] x) (hp : IsLoose p) (hx : x.head? ≠ some '\n')
    (hne : x ≠ []) : p.Seals := by
  rcases hp with hgap | rfl
  · cases p with
    | plain c => exact seals_of_isBlank hgap
    | literal q s => exact absurd hgap id
    | comment s =>
      obtain ⟨⟨c, cs, hc, hfirst⟩, -⟩ := h
      rw [textOf_nil, List.nil_append] at hfirst
      obtain ⟨-, ⟨b, -, line⟩ | ⟨b, hb, -⟩⟩ := comment?_cases (comment?_of_first hfirst) hc hne
      · have all : ∀ d ∈ c :: cs, (d != '\n') = true := fun d hd => by
          rw [← line] at hd
          exact List.mem_takeWhile_imp (p := (· != '\n')) hd
        obtain ⟨d, x, rfl⟩ := List.exists_cons_of_ne_nil hne
        have other : (d != '\n') = true := by simpa using hx
        rw [List.takeWhile_append_of_pos all,
          List.takeWhile_cons_of_pos (p := (· != '\n')) other] at line
        simp at line
      · exact ⟨b, hb.symm.trans hc.symm⟩
  · decide

theorem continuesName_of_isBlank {c : Char} (h : Text.isBlank c = true) :
    continuesName c = false := by
  have known : ∀ n ∈ Text.blankCodes, Text.alphabetic.has n = false ∧
      Text.numeral.has n = false := by
    decide +kernel
  obtain ⟨halpha, hnumeral⟩ := known _ (Text.mem_blankCodes_of_isBlank h)
  have other : c ≠ '_' := by
    rintro rfl
    revert h
    decide
  simp [continuesName, Text.isAlphanumeric, halpha, hnumeral, other]

/-- No name goes on behind a loose piece. -/
theorem continuesName_of_loose (h : IsCut before [p] x) (hp : IsLoose p) (hx : x.head? ≠ some '\n')
    (hne : x ≠ []) : (lastOf before p.text).any continuesName = false := by
  rcases hp with hgap | rfl
  · cases p with
    | plain c => exact continuesName_of_isBlank hgap
    | literal q s => exact absurd hgap id
    | comment s =>
      obtain ⟨⟨c, cs, hc, hfirst⟩, -⟩ := h
      rw [textOf_nil, List.nil_append] at hfirst
      obtain ⟨d, hd, init, hinit⟩ := (endsPiece_of_comment? (comment?_of_first hfirst) hc
        hne).resolve_right fun hline => hx hline.1
      have known : ∀ d ∈ ['"', '\'', '#', '/'], continuesName d = false := by decide +kernel
      rw [hc, ← hinit, lastOf_append]
      exact known d hd
  · exact (by decide +kernel : continuesName ',' = false)

/-- A piece of an element can stand in front of any text if its last character can. -/
theorem seals_of_getLast? (h : IsCut before [p] x) (hp : ¬ IsGap p) (hne : x ≠ [])
    (hends : ∀ c ∈ p.text.getLast?, (Piece.plain c).Seals) : p.Seals := by
  cases p with
  | plain c => exact hends c rfl
  | comment s => exact absurd trivial hp
  | literal q s =>
    obtain ⟨⟨c, cs, hc, hfirst⟩, -⟩ := h
    rw [textOf_nil, List.nil_append] at hfirst
    have literal : literal? before (c :: (cs ++ x)) = some (.literal q s) := by
      rcases first_cases before c (cs ++ x) with hcomment | ⟨-, hliteral⟩ | ⟨-, -, hplain⟩
      · obtain ⟨r, hr⟩ := exists_comment_of_comment? hcomment
        rw [hfirst] at hr
        cases hr
      · rwa [hfirst] at hliteral
      · rw [hfirst] at hplain
        cases hplain
    obtain ⟨d, hd, init, hinit⟩ := endsPiece_of_literal? literal hc hne
    have known : ∀ d ∈ ['"', '\'', '#', '/'], ¬ (Piece.plain d).Seals := by decide
    exact absurd (hends d (by rw [hc, ← hinit]; simp)) (known d hd)

/-- An element does not start with the end of a line. -/
theorem IsCore.exists_head (hcore : IsCore es)
    (h : pieces 0 before (textOf (es ++ qs)) = es ++ qs) :
    ∃ c u, textOf es = c :: u ∧ c ≠ '\n' := by
  obtain ⟨init, q, hlast, -⟩ := hcore.last
  obtain ⟨p, ps, rfl⟩ := List.exists_cons_of_ne_nil (show es ≠ [] by simp [hlast])
  have cut := (isCut_of_pieces (h.trans (List.append_nil _).symm)).2.1
  obtain ⟨⟨c, cs, hc, hfirst⟩, -⟩ : IsCut before (p :: (ps ++ qs)) (textOf []) := cut
  refine ⟨c, cs ++ textOf ps, by rw [textOf_cons, hc]; rfl, ?_⟩
  rintro rfl
  rw [first_of_seals (by decide)] at hfirst
  exact hcore.first p rfl (.inl (hfirst ▸ (by decide : Text.isBlank '\n' = true)))

theorem IsLoose.leads (h : IsLoose p) : p.Leads := by
  rcases h with hgap | rfl
  · cases p with
    | plain c => exact seals_of_isBlank hgap
    | literal q s => exact absurd hgap id
    | comment s => trivial
  · exact (by decide : (Piece.plain ',').Seals)

end Code

namespace Merge

open Code

variable {t t' function call marker : Text} {close : Char} {s : Cell} {as bs cs ss : List Cell}
  {pre post body lead front back lines rest cut behind more gs : List Piece}

/-! ## Texts that can be cut at their elements -/

/-- Whether a text can be cut at the elements of its list of definitions: they do not start or end
in the middle of a literal or a comment, and the head of the function ends in front of the list. -/
structure Separable (t : Text) : Prop where
  quotes : NoLooseQuote (pieces 0 none t)
  head : ∀ start opening closing, function? t Source.aggregate = some start →
    listIn? t Source.aggregate = some (opening, closing) → ')' ∈ Text.slice t start opening
  starts : ∀ x ∈ definitionTexts t, x.head? ≠ some '\''
  ends : ∀ x ∈ definitionTexts t, ∀ c ∈ x.getLast?, (Piece.plain c).Seals

/-- The last piece of an element seals what is in front of it. -/
theorem Separable.exists_seal {es : List Piece} (hs : Separable t)
    (h : pieces 0 none t = front ++ (es ++ back)) (hne : textOf back ≠ []) (hcore : IsCore es)
    (hes : textOf es ∈ definitionTexts t) : ∃ qs p, es = qs ++ [p] ∧ p.Seals := by
  obtain ⟨qs, p, rfl, hgap⟩ := hcore.last
  have split : pieces 0 none t = ((front ++ qs) ++ [p]) ++ back := by
    rw [h]
    simp
  have cut := (isCut_append_iff.mp (isCut_of_pieces split).2.1).2
  refine ⟨qs, p, rfl, seals_of_getLast? cut hgap hne fun d hd => hs.ends _ hes d ?_⟩
  rw [textOf_append, textOf_cons, textOf_nil, List.append_nil, List.getLast?_append,
    Option.mem_def.mp hd]
  rfl

/-- Whether the list in a text has these elements, with the same pieces around it as before. -/
def HasElements (t : Text) (pre post : List Piece) (close : Char) (cores : List (List Piece)) :
    Prop :=
  ∃ lead ss, pieces 0 none t =
      pre ++ .plain '[' :: ((lead ++ cellPieces ss) ++ .plain close :: post) ∧
    (∀ p ∈ lead, IsLoose p) ∧ AreCells ss ∧ ss.map Cell.core = cores

theorem Separable.definitionTexts_eq {cores : List (List Piece)} (hs : Separable t)
    (h : InBody t Source.aggregate pre body post close) (h' : HasElements t' pre post close cores) :
    definitionTexts t' = cores.map textOf := by
  obtain ⟨lead, ss, hp, hlead, hss, rfl⟩ := h'
  have head : ∀ start, function? t Source.aggregate = some start →
      ')' ∈ (textOf pre).drop start := by
    intro start hstart
    have inside := hs.head start _ _ hstart h.found
    rw [text_eq_of_bracket h.pieces_eq, Text.slice, List.take_left] at inside
    exact inside
  have listed := h.exchange (by decide) head hp (isPaired_cells hlead hss)
  rw [definitionTexts_of_cells listed hlead hss, map_textOf_core]

section Taken

variable (h : InBody t Source.aggregate pre (lead ++ cellPieces (as ++ s :: bs)) post close)
  (hlead : ∀ p ∈ lead, IsLoose p) (hcells : AreCells (as ++ s :: bs))
include h hlead hcells

theorem mem_definitionTexts {r : Cell} (hr : r ∈ as ++ s :: bs) :
    textOf r.core ∈ definitionTexts t := by
  rw [definitionTexts_of_cells h hlead hcells]
  exact List.mem_map_of_mem hr

/-- The text behind the cut elements. -/
theorem behind_of_taken (hs : Separable t) (taken : Taken t function marker
      (pre ++ .plain '[' :: lead) as s bs (.plain close :: post) lines rest cut more gs cs)
    {before : Option Char}
    (hbefore : bs ≠ [] → before.any continuesName = false) :
    (textOf (more ++ (cellPieces bs ++ .plain close :: post))).head? ≠ some '\'' ∧
      pieces 0 before (textOf (more ++ (cellPieces bs ++ .plain close :: post))) =
        more ++ (cellPieces bs ++ .plain close :: post) := by
  have whole := taken.cut_eq
  rw [← List.append_assoc] at whole
  have own := (isCut_of_pieces whole).2.2
  -- A piece that leads is read in the same way behind any text.
  have leads {q : Piece} {qs : List Piece}
      (hq : more ++ (cellPieces bs ++ .plain close :: post) = q :: qs) (hleads : q.Leads) :
      (textOf (more ++ (cellPieces bs ++ .plain close :: post))).head? ≠ some '\'' ∧
        pieces 0 before (textOf (more ++ (cellPieces bs ++ .plain close :: post))) =
          more ++ (cellPieces bs ++ .plain close :: post) := by
    rw [hq] at own ⊢
    have all := (isCut_of_pieces (own.trans (List.append_nil _).symm)).2.1
    have first := head?_ne_of_leads all hleads []
    rw [List.append_nil] at first
    exact ⟨first, pieces_of_leads own hleads⟩
  cases hmore : more with
  | cons q qs =>
    rw [hmore] at leads
    exact leads rfl (taken.more_loose q (by rw [hmore]; simp)).leads
  | nil =>
    rw [hmore] at leads own
    cases bs with
    | nil => exact leads rfl (seals_of_closes h.closes)
    | cons b bs =>
      obtain ⟨xs, c, hcut, hc⟩ := taken.apart (by simp)
      constructor
      · have hb : textOf b.core ∈ definitionTexts t := mem_definitionTexts h hlead hcells (by simp)
        have read := own
        simp only [List.nil_append, cellPieces_cons, List.append_assoc] at read
        obtain ⟨c, u, hu, -⟩ := (areCells_append_cons.mp taken.cells).2.1.exists_head read
        have first := hs.starts _ hb
        rw [hu] at first
        simpa [hu] using first
      · have same : (lastOf none (textOf (pre ++ .plain '[' :: lead ++ cellPieces cs ++ cut))).any
            continuesName = before.any continuesName := by
          rw [hbefore (by simp), hcut]
          simpa [Piece.text] using hc
        rw [← pieces_of_continues same]
        exact own

omit h hlead in
/-- What is cut out does not start with the end of a line. -/
theorem exists_head_of_taken (taken : Taken t function marker (pre ++ .plain '[' :: lead) as s bs
      (.plain close :: post) lines rest cut more gs cs) :
    ∃ c u, textOf (cut ++ (more ++ (cellPieces bs ++ .plain close :: post))) =
      c :: u ∧ c ≠ '\n' := by
  have own := (isCut_of_pieces taken.cut_eq).2.2
  have core {qs : List Piece} (hcut : cut = s.core ++ qs) :
      ∃ c u, textOf (cut ++ (more ++ (cellPieces bs ++ .plain close :: post))) = c :: u ∧
        c ≠ '\n' := by
    rw [hcut, List.append_assoc s.core] at own ⊢
    obtain ⟨c, u, hu, hc⟩ := (areCells_append_cons.mp hcells).2.1.exists_head own
    exact ⟨c, _, by rw [textOf_append, hu]; rfl, hc⟩
  cases taken.isSpan with
  | alone => exact core (List.append_nil _).symm
  | behind => exact core rfl
  | front => exact ⟨',', _, rfl, by decide⟩

/-- The text in front of the cut elements. -/
theorem front_of_taken (hs : Separable t) (taken : Taken t function marker
      (pre ++ .plain '[' :: lead) as s bs (.plain close :: post) lines rest cut more gs cs) :
    ∃ ps p, pre ++ .plain '[' :: lead ++ cellPieces cs = ps ++ [p] ∧ p.Seals ∧
      (bs ≠ [] → (lastOf none (textOf (ps ++ [p]))).any continuesName = false) := by
  obtain ⟨c, u, hx, hc⟩ := exists_head_of_taken hcells taken
  have upTo := isCut_of_pieces taken.cut_eq
  rw [hx] at upTo
  have loose (ps : List Piece) (p : Piece)
      (hp : pre ++ .plain '[' :: lead ++ cellPieces cs = ps ++ [p]) (hloose : IsLoose p) :
      ∃ ps p, pre ++ .plain '[' :: lead ++ cellPieces cs = ps ++ [p] ∧ p.Seals ∧
        (bs ≠ [] → (lastOf none (textOf (ps ++ [p]))).any continuesName = false) := by
    rw [hp] at upTo
    have cut := (isCut_append_iff.mp upTo.2.1).2
    have first : (c :: u).head? ≠ some '\n' := by simpa using hc
    refine ⟨ps, p, hp, seals_of_loose cut hloose first (by simp), fun _ => ?_⟩
    have ends := continuesName_of_loose cut hloose first (by simp)
    rwa [← lastOf_append, ← List.append_nil p.text, ← textOf_nil, ← textOf_cons,
      ← textOf_append] at ends
  rcases List.eq_nil_or_concat cs with rfl | ⟨init, r, rfl⟩
  · rcases List.eq_nil_or_concat lead with rfl | ⟨init, p, rfl⟩
    · exact ⟨pre, .plain '[', by simp, by decide, fun _ => by simpa [Piece.text] using
        (by decide +kernel : continuesName '[' = false)⟩
    · exact loose (pre ++ .plain '[' :: init) p (by simp) (hlead p (by simp))
  · have cells := taken.cells
    rw [List.concat_eq_append, List.append_assoc] at cells
    obtain ⟨-, hcore, htail, hcomma, -⟩ := areCells_append_cons.mp cells
    rcases List.eq_nil_or_concat r.tail with hnil | ⟨tail, p, hp⟩
    · have last : bs = [] := hcomma.resolve_right (by rw [hnil]; simp)
      obtain ⟨a, ha, hacore⟩ : ∃ a ∈ as, a.core = r.core := by
        have held : r.core ∈ (init.concat r).map Cell.core := by simp
        rw [taken.cores] at held
        exact List.mem_map.mp held
      have element := mem_definitionTexts h hlead hcells (r := a) (by simp [ha])
      have split : pieces 0 none t = (pre ++ .plain '[' :: lead ++ cellPieces init) ++
          (r.core ++ (cut ++ (more ++ (cellPieces bs ++ .plain close :: post)))) := by
        rw [taken.cut_eq]
        simp [hnil]
      obtain ⟨qs, p, hqs, hseals⟩ :=
        hs.exists_seal split (by simp [hx]) hcore (hacore ▸ element)
      exact ⟨pre ++ .plain '[' :: (lead ++ (cellPieces init ++ qs)), p, by simp [hnil, hqs], hseals,
        fun h => absurd last h⟩
    · exact loose (pre ++ .plain '[' :: (lead ++ (cellPieces init ++ (r.core ++ tail)))) p
        (by simp [hp]) (htail p (by simp [hp]))

/-- The list without the element that is cut out. -/
theorem hasElements_of_cut (hs : Separable t) (taken : Taken t function marker
      (pre ++ .plain '[' :: lead) as s bs (.plain close :: post) lines rest cut more gs cs) :
    HasElements (textOf (pre ++ .plain '[' :: lead ++ cellPieces cs) ++
        textOf (more ++ (cellPieces bs ++ .plain close :: post))) pre post close
      ((as ++ bs).map Cell.core) := by
  obtain ⟨ps, p, hfront, hseals, hname⟩ := front_of_taken h hlead hcells hs taken
  obtain ⟨hhead, hbehind⟩ := behind_of_taken h hlead hcells hs taken hname
  have whole := taken.cut_eq
  rw [hfront] at whole
  have pieces :=
    pieces_exchange whole hseals hs.quotes (by simp [Piece.text]) cuts_nil hhead hbehind
  obtain ⟨lead', ss, hcs, hlead', hss, hcores⟩ :=
    exists_cells_loose hlead taken.cells taken.more_loose
  have body : ps ++ [p] ++ ([] ++ (more ++ (cellPieces bs ++ .plain close :: post))) =
      pre ++ .plain '[' :: ((lead' ++ cellPieces ss) ++ .plain close :: post) := by
    rw [← hfront, ← hcs]
    simp
  rw [body, textOf_nil, List.nil_append, ← hfront] at pieces
  refine ⟨lead', ss, pieces, hlead', hss, ?_⟩
  rw [hcores, List.map_append, taken.cores, ← List.map_append]

/-- The lines of an element become comments between two ends of lines. -/
theorem exists_lines_of_taken (hm : '\n' ∉ marker) (taken : Taken t function marker
      (pre ++ .plain '[' :: lead) as s bs (.plain close :: post) lines rest cut behind gs cs)
    (hout : commentOut? t (textOf (pre ++ .plain '[' :: lead ++ cellPieces as)).length
      (textOf (pre ++ .plain '[' :: lead ++ cellPieces as ++ lines)).length marker = some t') :
    ∃ ls as' ds gaps more, (∀ p ∈ ls, IsLoose p) ∧ AreCells (as' ++ bs) ∧
      as'.map Cell.core = as.map Cell.core ∧ (∀ g ∈ gaps, IsGap g) ∧ Cuts (gaps ++ [.plain '\n']) ∧
      (∀ p ∈ more, IsLoose p) ∧
      pieces 0 none t = ((pre ++ .plain '[' :: (ls ++ cellPieces as')) ++ [.plain '\n']) ++
        ((ds ++ [.plain '\n']) ++ (more ++ (cellPieces bs ++ .plain close :: post))) ∧
      t' = textOf (pre ++ .plain '[' :: (ls ++ cellPieces as') ++ [.plain '\n']) ++
        (textOf (gaps ++ [.plain '\n']) ++
          textOf (more ++ (cellPieces bs ++ .plain close :: post))) := by
  generalize hback : cellPieces bs ++ .plain close :: post = back
  have whole := taken.lines_eq
  rw [hback] at whole
  have upTo := isCut_of_pieces whole
  rw [upTo.1, textOf_append lines, textOf_append (_ ++ _) lines] at hout
  obtain ⟨u, v, w, z, block, hu, hw, hv, hwb, ⟨gaps, rfl, hcuts, hgaps⟩, rfl⟩ :=
    exists_of_commentOut? hout hm ⟨'[', by simp [Piece.text], by decide⟩
    ⟨close, by simp [← hback, Piece.text], not_blank_of_closes h.closes⟩
  -- The line starts and ends between two pieces.
  obtain ⟨front, hfront, rfl⟩ := exists_of_line upTo.2.1 (by simp [← hback, Piece.text]) hu hv
  have blanks : ∀ c ∈ w ++ ['\n'], Text.isBlank c = true :=
    List.forall_mem_append.mpr ⟨hwb, by decide⟩
  have own := (isCut_of_pieces (whole.trans (List.append_assoc _ _ _).symm)).2.2
  obtain ⟨more, hmore⟩ := exists_blanks blanks ⟨z, by rw [hw]; simp⟩ own (by
    rw [← hback]
    exact head_not_gap (areCells_append_cons.mp hcells).2.2.2.2 h.closes post)
  have hz : z = textOf (more ++ back) := by
    rw [hmore, List.append_assoc, textOf_append, textOf_plains] at hw
    have line : w ++ '\n' :: z = (w ++ ['\n']) ++ z := by simp
    exact (List.append_cancel_left (hw.trans line)).symm
  subst hz
  obtain ⟨xs, rfl, hxs⟩ : ∃ xs, front = pre ++ .plain '[' :: xs ∧
      lead ++ cellPieces as = xs ++ plains ('\n' :: v) := exists_of_bracket_append (by decide)
        (List.forall_mem_cons.mpr ⟨by decide, hv⟩) (by simpa using hfront)
  obtain ⟨ls, as', rfl, hls, cells, hcores⟩ := exists_cells_of_blanks hlead
    (areCells_append_of_cons hcells) (List.forall_mem_cons.mpr ⟨by decide, hv⟩) hxs
  refine ⟨ls, as', plains v ++ (lines ++ plains w), gaps, more, hls, cells, hcores, hgaps, hcuts,
    fun p hp => taken.rest_loose p (by rw [hmore]; simp [hp]), ?_, by simp [Piece.text]⟩
  rw [whole, hfront, hmore]
  simp

/-- The list without the element whose lines become comments. -/
theorem hasElements_of_lines (hs : Separable t) (hm : '\n' ∉ marker)
    (taken : Taken t function marker (pre ++ .plain '[' :: lead) as s bs
      (.plain close :: post) lines rest
      cut behind gs cs)
    (hout : commentOut? t (textOf (pre ++ .plain '[' :: lead ++ cellPieces as)).length
      (textOf (pre ++ .plain '[' :: lead ++ cellPieces as ++ lines)).length marker = some t') :
    HasElements t' pre post close ((as ++ bs).map Cell.core) := by
  obtain ⟨ls, as', ds, gaps, more, hls, cells, hcores, hgaps, hcuts, hmore, split, rfl⟩ :=
    exists_lines_of_taken h hlead hcells hm taken hout
  have newline : IsGap (.plain '\n') := (by decide : Text.isBlank '\n' = true)
  have loose : ∀ p ∈ gaps ++ [.plain '\n'], IsLoose p :=
    List.forall_mem_append.mpr ⟨fun g hg => .inl (hgaps g hg), by simpa using .inl newline⟩
  obtain ⟨lead', ss, hss, hlead', hss', hcores'⟩ := exists_cells_loose hls cells
    (List.forall_mem_cons.mpr ⟨.inl newline, List.forall_mem_append.mpr ⟨loose, hmore⟩⟩)
  have first : (textOf (gaps ++ [.plain '\n']) ++ textOf (more ++ (cellPieces bs ++
      .plain close :: post))).head? ≠ some '\'' := by
    obtain ⟨q, qs, hq⟩ := List.exists_cons_of_ne_nil (show gaps ++ [.plain '\n'] ≠ [] by simp)
    rw [hq] at hcuts loose ⊢
    exact head?_ne_of_leads (hcuts none []) (loose q List.mem_cons_self).leads _
  have last := (isCut_of_pieces (split.trans (List.append_assoc _ _ _).symm)).2.2
  have pieces := pieces_exchange split (by decide) hs.quotes (by simp [Piece.text]) hcuts first
    (by simpa [Piece.text] using last)
  have body : pre ++ .plain '[' :: (ls ++ cellPieces as') ++ [.plain '\n'] ++
      (gaps ++ [.plain '\n'] ++ (more ++ (cellPieces bs ++ .plain close :: post))) =
        pre ++ .plain '[' :: ((lead' ++ cellPieces ss) ++ .plain close :: post) := by
    rw [← hss]
    simp
  rw [body] at pieces
  refine ⟨lead', ss, pieces, hlead', hss', ?_⟩
  rw [hcores', List.map_append, hcores, ← List.map_append]

end Taken

/-- Taking a function off the list takes the first element away that starts with its call. -/
theorem hasElements_unlistDefinition (hs : Separable t) (hm : '\n' ∉ marker) (function : Text)
    (h : InBody t Source.aggregate pre (lead ++ cellPieces ss) post close)
    (hlead : ∀ p ∈ lead, IsLoose p) (hcells : AreCells ss) :
    HasElements (unlistDefinition t function marker) pre post close
      ((ss.map Cell.core).eraseP fun es => decide (callOf function <+: textOf es)) := by
  rcases first_call_cases function ss with absent | ⟨as, s, bs, rfl, hstarts, hfirst⟩
  · rw [unlistDefinition_of_absent h hlead hcells absent, List.eraseP_of_forall_not]
    · exact ⟨lead, ss, h.pieces_eq, hlead, hcells, rfl⟩
    · intro es hes
      obtain ⟨s, hs, rfl⟩ := List.mem_map.mp hes
      simpa using absent s hs
  · obtain ⟨lines, rest, cut, more, gs, cs, taken⟩ :=
      exists_taken h hlead hcells hstarts hfirst marker
    have erased : ((as ++ s :: bs).map Cell.core).eraseP
        (fun es => decide (callOf function <+: textOf es)) = (as ++ bs).map Cell.core := by
      rw [List.map_append, List.map_cons, List.eraseP_append_right, List.eraseP_cons_of_pos,
        List.map_append]
      · exact decide_eq_true hstarts
      · intro es hes
        obtain ⟨a, ha, rfl⟩ := List.mem_map.mp hes
        simpa using hfirst a ha
    rw [erased, taken.text_eq]
    cases hout : commentOut? t (textOf (pre ++ .plain '[' :: lead ++ cellPieces as)).length
        (textOf (pre ++ .plain '[' :: lead ++ cellPieces as ++ lines)).length marker with
    | some t' => exact hasElements_of_lines h hlead hcells hs hm taken hout
    | none => exact hasElements_of_cut h hlead hcells hs taken

theorem definitionTexts_unlistDefinition (hs : Separable t) (hm : '\n' ∉ marker) (function : Text) :
    definitionTexts (unlistDefinition t function marker) =
      (definitionTexts t).eraseP fun x => decide (callOf function <+: x) := by
  cases hlist : listIn? t Source.aggregate with
  | none =>
    have none : definitionTexts t = [] := by rw [definitionTexts, hlist]
    rw [unlistDefinition, hlist, none]
    rfl
  | some place =>
    obtain ⟨pre, body, post, close, h⟩ := exists_inBody hlist
    obtain ⟨lead, ss, rfl, hlead, hcells⟩ := h.exists_cells
    rw [hs.definitionTexts_eq h (hasElements_unlistDefinition hs hm function h hlead hcells),
      definitionTexts_of_cells h hlead hcells, map_textOf_core]
    exact (List.eraseP_map (f := textOf) (p := fun x => decide (callOf function <+: x))).symm

end Merge

end SchemaDrift
