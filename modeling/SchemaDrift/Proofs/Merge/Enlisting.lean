import SchemaDrift.Proofs.Merge.Remaining

namespace SchemaDrift

/-!
# Putting a function on the list of definitions

The function of an added index is listed behind the other elements. If the list ends on a line of
its own, the new element has a line as well. The other elements stay as they are written.
-/

namespace Code

variable {t x : Text} {p q : Piece} {ps qs ins ls : List Piece}

theorem NoLooseQuote.insert (h : NoLooseQuote (ps ++ qs)) (hp : .plain '\'' ∉ ps.getLast?)
    (hins : .plain '\'' ∉ ins) : NoLooseQuote (ps ++ (ins ++ qs)) := by
  have front : NoLooseQuote ps := h.of_infix (List.prefix_append ps qs).isInfix
  have back : NoLooseQuote qs := h.of_infix (List.suffix_append ps qs).isInfix
  have last : .plain '\'' ∉ ins.getLast? := fun hm => hins (List.mem_of_getLast? hm)
  exact front.append ((noLooseQuote_of_not_mem hins).append back (.inl last)) (.inl hp)

/-- Code can be put behind a piece that seals what is in front of it. -/
theorem pieces_insert (h : pieces 0 none t = (ps ++ [p]) ++ q :: qs) (hp : p.Seals) (hq : q.Leads)
    (hquotes : NoLooseQuote (pieces 0 none t)) (hins : Cuts (plains x)) (hne : x ≠ [])
    (hx : '\'' ∉ x) :
    pieces 0 none (Text.insertAt t (textOf (ps ++ [p])).length x) =
        (ps ++ [p]) ++ (plains x ++ q :: qs) ∧
      NoLooseQuote (pieces 0 none (Text.insertAt t (textOf (ps ++ [p])).length x)) := by
  obtain ⟨text, -, own⟩ := isCut_of_pieces h
  have whole : pieces 0 none t = (ps ++ [p]) ++ ([] ++ q :: qs) := h
  have filled : textOf (q :: qs) ≠ [] := by
    intro hnil
    rw [hnil] at own
    cases own
  have first : (textOf (plains x) ++ textOf (q :: qs)).head? ≠ some '\'' := by
    rw [textOf_plains, List.head?_append_of_ne_nil _ hne]
    exact fun hhead => hx (List.mem_of_head? hhead)
  have inserted : Text.insertAt t (textOf (ps ++ [p])).length x =
      textOf (ps ++ [p]) ++ (textOf (plains x) ++ textOf (q :: qs)) := by
    conv_lhs => rw [text]
    rw [Text.insertAt_append, textOf_plains]
  have same := pieces_exchange whole hp hquotes filled hins first (pieces_of_leads own hq)
  rw [inserted, same]
  refine ⟨rfl, ?_⟩
  rw [h] at hquotes
  refine hquotes.insert ?_ (not_mem_plains hx)
  rw [List.getLast?_concat]
  rintro ⟨rfl⟩
  exact absurd hp (by decide)

theorem exists_leads (hls : ∀ p ∈ ls, IsLoose p) (hq : q.Leads) (qs : List Piece) :
    ∃ p ps, ls ++ q :: qs = p :: ps ∧ p.Leads := by
  cases ls with
  | nil => exact ⟨q, qs, rfl, hq⟩
  | cons p ls => exact ⟨p, _, rfl, (hls p List.mem_cons_self).leads⟩

end Code

namespace Merge

open Code

variable {t t' a b f : Text} {close : Char} {s : Cell} {init ss : List Cell} {p : Piece}
  {pre post lead tail ps : List Piece}

theorem isLoose_plains {x : Text} (h : ∀ c ∈ x, Text.isBlank c = true ∨ c = ',') :
    ∀ p ∈ plains x, IsLoose p := by
  intro p hp
  obtain ⟨c, hc, rfl⟩ := List.mem_map.mp hp
  exact (h c hc).imp_right (congrArg Piece.plain)

/-! ## Definitions that are inserted -/

/-- The definition of a function can be put behind a piece that seals what is in front of it, with
blanks and commas around it. -/
theorem pieces_insert_definition (hf : IsIdent f) (hs : NoLooseQuote (pieces 0 none t))
    (h : pieces 0 none t = (ps ++ [p]) ++ (tail ++ .plain close :: post)) (hp : p.Seals)
    (htail : ∀ p ∈ tail, IsLoose p) (hclose : closes close = true)
    (ha : ∀ c ∈ a, Text.isBlank c = true ∨ c = ',')
    (hb : ∀ c ∈ b, Text.isBlank c = true ∨ c = ',') :
    pieces 0 none (Text.insertAt t (textOf (ps ++ [p])).length (a ++ Source.definition f ++ b)) =
        (ps ++ [p]) ++ (plains (a ++ Source.definition f ++ b) ++ (tail ++ .plain close :: post)) ∧
      NoLooseQuote (pieces 0 none
        (Text.insertAt t (textOf (ps ++ [p])).length (a ++ Source.definition f ++ b))) := by
  have seals {x : Text} (hx : ∀ c ∈ x, Text.isBlank c = true ∨ c = ',') :
      ∀ c ∈ x, (Piece.plain c).Seals := fun c hc =>
    (hx c hc).elim seals_of_isBlank fun he => he ▸ (by decide : (Piece.plain ',').Seals)
  have free {x : Text} (hx : ∀ c ∈ x, Text.isBlank c = true ∨ c = ',') : '\'' ∉ x := fun hm =>
    absurd (seals hx _ hm) (by decide)
  have cuts : Cuts (plains (a ++ Source.definition f ++ b)) := by
    rw [plains_append, plains_append]
    exact ((cuts_plains_of_seals (seals ha)).append (cuts_definition hf)).append
      (cuts_plains_of_seals (seals hb))
  have quote : '\'' ∉ a ++ Source.definition f ++ b := by
    simp only [List.mem_append, not_or]
    exact ⟨⟨free ha, not_mem_definition hf (by decide) (by decide)⟩, free hb⟩
  obtain ⟨q, qs, hq, hleads⟩ := exists_leads (q := .plain close) htail (seals_of_closes hclose) post
  rw [hq] at h ⊢
  exact pieces_insert h hp hleads hs cuts (by simp [Source.definition]) quote

/-- The elements with another one behind them, if `m` stands in front of it and `b` behind it. -/
theorem hasElements_concat {m b : List Piece} (hf : IsIdent f) (hlead : ∀ p ∈ lead, IsLoose p)
    (hcells : AreCells (init ++ [s])) (hm : ∀ p ∈ m, IsLoose p) (hcomma : .plain ',' ∈ m)
    (hb : ∀ p ∈ b, IsLoose p)
    (h : pieces 0 none t' = (pre ++ .plain '[' :: (lead ++ cellPieces init)) ++ (s.core ++ (m ++
      (plains (Source.definition f) ++ (b ++ .plain close :: post))))) :
    HasElements t' pre post close
      ((init ++ [s]).map Cell.core ++ [plains (Source.definition f)]) := by
  obtain ⟨hfront, hcore, -⟩ := areCells_append_cons.mp hcells
  refine ⟨lead, init ++ [⟨s.core, m⟩, ⟨plains (Source.definition f), b⟩], ?_, hlead, ?_,
    by simp⟩
  · rw [h]
    simp
  · exact areCells_append_cons.mpr ⟨hfront, hcore, hm, .inr hcomma, isCore_definition hf, hb,
      .inl rfl, trivial⟩

/-! ## Places in the list -/

theorem length_front (pre body : List Piece) :
    (textOf pre).length + 1 + (textOf body).length =
      (textOf (pre ++ .plain '[' :: body)).length := by
  simp [Piece.text]
  omega

/-- The last element of a list has a comma behind it, or lacks one. -/
theorem last_cases_of_tail {es : List Entry} {place : Nat}
    (hes : es.getLast? = some (s.entry place)) (hs : ∀ p ∈ s.tail, IsLoose p) :
    (.plain ',' ∈ s.tail ∧ lastIsOpen es = false ∧ ∀ x, closeLast es x = x) ∨
      .plain ',' ∉ s.tail ∧ lastIsOpen es = true ∧
        ∀ x, closeLast es x = Text.insertAt x (place + (textOf s.core).length) "," := by
  rcases tail_cases hs with ⟨hcomma, -⟩ | ⟨gs, rest, htail, hgs, -⟩
  · have none : s.entry place = ⟨place, place + (textOf s.core).length, none⟩ := by
      rw [Cell.entry, commaIn_of_not_mem hcomma]
    refine .inr ⟨hcomma, ?_, fun x => ?_⟩
    · rw [lastIsOpen, hes, none]
      rfl
    · rw [closeLast, hes, none]
  · have some := Cell.comma_entry htail hgs place
    refine .inl ⟨by simp [htail], ?_, fun x => ?_⟩
    · rw [lastIsOpen, hes]
      simp only [some, Option.isNone_some]
    · unfold closeLast
      split
      · rename_i start stop hlast
        rw [hes] at hlast
        rw [Option.some.inj hlast] at some
        cases some
      · rfl

section Last

variable (h : InBody t Source.aggregate pre (lead ++ cellPieces (init ++ [s])) post close)
  (hs : Separable t) (hlead : ∀ p ∈ lead, IsLoose p) (hcells : AreCells (init ++ [s]))
include h

/-- The pieces up to the last element of a list. -/
theorem pieces_last : pieces 0 none t = (pre ++ .plain '[' :: (lead ++ cellPieces init)) ++
      (s.core ++ (s.tail ++ .plain close :: post)) := by
  rw [h.pieces_eq]
  simp

include hcells

/-- If the bracket stands on a line of its own, the line ends what stands behind the last
element. -/
theorem exists_line (hstarts : startsLine t
      ((textOf pre).length + 1 + (textOf (lead ++ cellPieces (init ++ [s]))).length) = true) :
    ∃ ls v, s.tail = ls ++ plains ('\n' :: v) ∧ (∀ c ∈ v, Text.isBlank c = true) ∧ lineStart t
        ((textOf pre).length + 1 + (textOf (lead ++ cellPieces (init ++ [s]))).length) =
      (textOf (pre ++ .plain '[' :: (lead ++ cellPieces init) ++ (s.core ++ ls) ++
        [.plain '\n'])).length := by
  have hcore := (areCells_append_cons.mp hcells).2.1
  have split := pieces_last h
  have upTo : (textOf pre).length + 1 + (textOf (lead ++ cellPieces (init ++ [s]))).length =
      (textOf (pre ++ .plain '[' :: (lead ++ cellPieces init) ++ (s.core ++ s.tail))).length := by
    rw [length_front]
    simp
  rw [upTo] at hstarts ⊢
  have opening : '[' ∈ textOf (pre ++ .plain '[' :: (lead ++ cellPieces init) ++
      (s.core ++ s.tail)) := by
    simp [Piece.text]
  generalize pre ++ .plain '[' :: (lead ++ cellPieces init) = front at split hstarts opening
  rw [← List.append_assoc s.core, ← List.append_assoc] at split
  have whole := (isCut_of_pieces split).1
  rw [whole] at hstarts
  obtain ⟨u, v, hu, hnv, hv⟩ := (exists_of_startsLine hstarts).resolve_left fun all =>
    absurd (all '[' opening) (by decide)
  obtain ⟨qs, hqs, rfl⟩ := exists_of_line (isCut_of_pieces split).2.1 (by simp [Piece.text]) hu hv
  obtain ⟨ls, hls, rfl⟩ := exists_tail_of_blanks hcore
    (List.forall_mem_cons.mpr ⟨by decide, hv⟩) hqs
  refine ⟨ls, v, hls, hv, ?_⟩
  conv_lhs => rw [whole, hu]
  rw [lineStart_append hnv]
  simp [Piece.text, Nat.add_assoc]

include hlead

theorem getLast?_entries : (entries t (textOf pre).length ((textOf pre).length + 1 +
      (textOf (lead ++ cellPieces (init ++ [s]))).length)).getLast? =
    some (s.entry (textOf (pre ++ .plain '[' :: (lead ++ cellPieces init))).length) := by
  have place : (textOf (pre ++ .plain '[' :: lead)).length + (textOf (cellPieces init)).length =
      (textOf (pre ++ .plain '[' :: (lead ++ cellPieces init))).length := by
    simp [Piece.text]
    omega
  rw [h.entries_eq hlead hcells, getLast?_cellEntries_concat, place]

include hs

theorem exists_seal_last : ∃ ps p, pre ++ .plain '[' :: (lead ++ cellPieces init) ++ s.core =
    ps ++ [p] ∧ p.Seals := by
  obtain ⟨qs, p, hqs, hp⟩ := hs.exists_seal (pieces_last h) (by simp [Piece.text])
    (areCells_append_cons.mp hcells).2.1 (mem_definitionTexts h hlead hcells (by simp))
  exact ⟨pre ++ .plain '[' :: (lead ++ cellPieces init) ++ qs, p, by simp [hqs], hp⟩

variable (hf : IsIdent f)
include hf

/-- Behind an element without a comma, the new one follows on the same line. -/
theorem hasElements_of_open : HasElements (Text.insertAt t
      (textOf (pre ++ .plain '[' :: (lead ++ cellPieces init) ++ s.core)).length
      (", " ++ Source.definition f))
    pre post close ((init ++ [s]).map Cell.core ++ [plains (Source.definition f)]) := by
  obtain ⟨ps, p, hfront, hp⟩ := exists_seal_last h hs hlead hcells
  have whole := pieces_last h
  rw [← List.append_assoc, hfront] at whole
  have tail := (areCells_append_cons.mp hcells).2.2.1
  have inserted := (pieces_insert_definition (a := ", ") (b := []) hf hs.quotes whole hp tail
    h.closes (by decide) (by simp)).1
  rw [List.append_nil, ← hfront] at inserted
  refine hasElements_concat (m := plains ", ") hf hlead hcells (isLoose_plains (by decide))
    (by decide) tail ?_
  rw [inserted]
  simp

/-- Behind an element with a comma, the new one follows on the same line. -/
theorem hasElements_of_comma {gs rest : List Piece} (htail : s.tail = gs ++ .plain ',' :: rest) :
    HasElements (Text.insertAt t
      (textOf (pre ++ .plain '[' :: (lead ++ cellPieces init) ++ (s.core ++ gs) ++
        [.plain ','])).length
      (" " ++ Source.definition f ++ ","))
    pre post close ((init ++ [s]).map Cell.core ++ [plains (Source.definition f)]) := by
  have tail := (areCells_append_cons.mp hcells).2.2.1
  rw [htail] at tail
  obtain ⟨hgs, hrest⟩ := List.forall_mem_append.mp tail
  have loose : ∀ p ∈ rest, IsLoose p := fun p hp => hrest p (List.mem_cons_of_mem _ hp)
  have whole : pieces 0 none t = (pre ++ .plain '[' :: (lead ++ cellPieces init) ++
      (s.core ++ gs) ++ [.plain ',']) ++ (rest ++ .plain close :: post) := by
    rw [pieces_last h, htail]
    simp
  have inserted := (pieces_insert_definition (a := " ") (b := ",") hf hs.quotes whole (by decide)
    loose h.closes (by decide) (by decide)).1
  refine hasElements_concat (m := gs ++ plains ", ") (b := .plain ',' :: rest) hf hlead
    hcells (List.forall_mem_append.mpr ⟨hgs, isLoose_plains (by decide)⟩) (by simp)
    (List.forall_mem_cons.mpr ⟨.inr rfl, loose⟩) ?_
  rw [inserted]
  simp

/-- In front of the line of the bracket, the new element has a line. If the element in front of it
lacks a comma, it gets one. -/
theorem hasElements_of_line {indent : Text} (hi : ∀ c ∈ indent, Text.isBlank c = true)
    (hstarts : startsLine t
      ((textOf pre).length + 1 + (textOf (lead ++ cellPieces (init ++ [s]))).length) = true)
    {es : List Entry} (hes : es.getLast? =
      some (s.entry (textOf (pre ++ .plain '[' :: (lead ++ cellPieces init))).length)) :
    HasElements (closeLast es (Text.insertAt t (lineStart t
        ((textOf pre).length + 1 + (textOf (lead ++ cellPieces (init ++ [s]))).length))
          (indent ++ Source.definition f ++ (if lastIsOpen es then [] else (",") : Text) ++ "\n")))
      pre post close ((init ++ [s]).map Cell.core ++ [plains (Source.definition f)]) := by
  obtain ⟨ls, v, hls, hv, hstart⟩ := exists_line h hcells hstarts
  rw [hstart]
  have tail := (areCells_append_cons.mp hcells).2.2.1
  have loose : ∀ p ∈ ls, IsLoose p := fun p hp => tail p (by simp [hls, hp])
  have blanks : ∀ p ∈ plains v, IsLoose p := isLoose_plains fun c hc => .inl (hv c hc)
  have line : ∀ p ∈ plains ('\n' :: indent), IsLoose p :=
    isLoose_plains (List.forall_mem_cons.mpr ⟨.inl (by decide), fun c hc => .inl (hi c hc)⟩)
  have whole : pieces 0 none t = (pre ++ .plain '[' :: (lead ++ cellPieces init) ++
      (s.core ++ ls) ++ [.plain '\n']) ++ (plains v ++ .plain close :: post) := by
    rw [pieces_last h, hls]
    simp
  rcases last_cases_of_tail hes tail with ⟨hcomma, hopen, hclose⟩ | ⟨hcomma, hopen, hclose⟩
  · have held : .plain ',' ∈ ls := by
      rw [hls] at hcomma
      exact (List.mem_append.mp hcomma).resolve_right fun hm => by
        cases (isGap_plains (List.forall_mem_cons.mpr ⟨by decide, hv⟩) _ hm :
          Text.isBlank ',' = true)
    have inserted := (pieces_insert_definition (a := indent) (b := ",\n") hf hs.quotes whole
      (by decide) blanks h.closes (fun c hc => .inl (hi c hc)) (by decide)).1
    rw [hopen, hclose]
    refine hasElements_concat (m := ls ++ plains ('\n' :: indent))
      (b := plains ",\n" ++ plains v) hf hlead hcells
      (List.forall_mem_append.mpr ⟨loose, line⟩) (List.mem_append_left _ held)
      (List.forall_mem_append.mpr ⟨isLoose_plains (by decide), blanks⟩) ?_
    have regroup : indent ++ Source.definition f ++
        (if false = true then [] else (",") : Text) ++ "\n" =
      indent ++ Source.definition f ++ ",\n" := by simp
    rw [regroup, inserted]
    simp
  · obtain ⟨inserted, quotes⟩ := pieces_insert_definition (a := indent) (b := "\n") hf hs.quotes
      whole (by decide) blanks h.closes (fun c hc => .inl (hi c hc)) (by decide)
    obtain ⟨ps, p, hfront, hp⟩ := exists_seal_last h hs hlead hcells
    have length : (textOf (pre ++ .plain '[' :: (lead ++ cellPieces init))).length +
        (textOf s.core).length = (textOf (ps ++ [p])).length := by
      rw [← hfront, textOf_append _ s.core, List.length_append]
    generalize hback : plains (indent ++ Source.definition f ++ "\n") ++
      (plains v ++ .plain close :: post) = back at inserted
    obtain ⟨q, qs, hqs, hq⟩ :=
      exists_leads (q := .plain '\n') loose (by decide : (Piece.plain '\n').Seals) back
    have split : pieces 0 none (Text.insertAt t (textOf (pre ++ .plain '[' ::
        (lead ++ cellPieces init) ++ (s.core ++ ls) ++ [.plain '\n'])).length
          (indent ++ Source.definition f ++ "\n")) = (ps ++ [p]) ++ q :: qs := by
      rw [inserted, ← hqs, ← hfront]
      simp
    have closed := (pieces_insert split hp hq quotes (x := ",") (cuts_plains_of_seals (by decide))
      (by decide) (by decide)).1
    rw [hopen, hclose, length]
    refine hasElements_concat (m := .plain ',' :: (ls ++ plains ('\n' :: indent)))
      (b := plains "\n" ++ plains v) hf hlead hcells
      (List.forall_mem_cons.mpr ⟨.inr rfl, List.forall_mem_append.mpr ⟨loose, line⟩⟩)
      List.mem_cons_self
      (List.forall_mem_append.mpr ⟨isLoose_plains (by decide), blanks⟩) ?_
    have regroup : indent ++ Source.definition f ++ (if true = true then [] else (",") : Text) ++
        "\n" = indent ++ Source.definition f ++ "\n" := by simp
    rw [regroup, closed, ← hqs, ← hfront, ← hback]
    simp

end Last

/-- What stands in front of the bracket of an empty list seals it. -/
theorem exists_seal_front (h : InBody t Source.aggregate pre (lead ++ cellPieces []) post close)
    (hlead : ∀ p ∈ lead, IsLoose p) :
    ∃ ps p, pre ++ .plain '[' :: lead = ps ++ [p] ∧ p.Seals := by
  rcases List.eq_nil_or_concat lead with rfl | ⟨init, p, rfl⟩
  · exact ⟨pre, .plain '[', rfl, by decide⟩
  · rw [List.concat_eq_append] at h hlead ⊢
    have whole : pieces 0 none t = (pre ++ .plain '[' :: init) ++ [p] ++ .plain close :: post := by
      rw [h.pieces_eq]
      simp
    have cut := (isCut_append_iff.mp (isCut_of_pieces whole).2.1).2
    have visible : close ≠ '\n' := by
      rintro rfl
      cases not_blank_of_closes h.closes
    have first : (textOf (.plain close :: post)).head? ≠ some '\n' := by
      simpa [Piece.text] using visible
    exact ⟨pre ++ .plain '[' :: init, p, by simp,
      seals_of_loose cut (hlead p (by simp)) first (by simp [Piece.text])⟩

/-- A list has the definition of the function that is put on it behind its other elements. -/
theorem exists_listDefinition (hs : Separable t) (hf : IsIdent f)
    (h : InBody t Source.aggregate pre (lead ++ cellPieces ss) post close)
    (hlead : ∀ p ∈ lead, IsLoose p) (hcells : AreCells ss) :
    ∃ t', listDefinition? t f = some t' ∧ HasElements t' pre post close
      (ss.map Cell.core ++ [plains (Source.definition f)]) := by
  rw [listDefinition?, h.found]
  simp only [Option.bind_eq_bind, Option.bind_some]
  rcases List.eq_nil_or_concat ss with rfl | ⟨init, s, rfl⟩
  · obtain ⟨ps, p, hfront, hp⟩ := exists_seal_front h hlead
    have whole : pieces 0 none t = (ps ++ [p]) ++ ([] ++ .plain close :: post) := by
      rw [h.pieces_eq, ← hfront]
      simp
    have inserted := (pieces_insert_definition (a := []) (b := []) hf hs.quotes whole hp nofun
      h.closes nofun nofun).1
    have place : (textOf pre).length + 1 + (textOf (lead ++ cellPieces [])).length =
        (textOf (ps ++ [p])).length := by
      rw [length_front, ← hfront, cellPieces_nil, List.append_nil]
    rw [h.entries_eq hlead hcells, place]
    refine ⟨_, rfl, lead, [⟨plains (Source.definition f), []⟩], ?_, hlead,
      ⟨isCore_definition hf, nofun, .inl rfl, trivial⟩, rfl⟩
    rw [List.nil_append, List.append_nil] at inserted
    rw [inserted, ← hfront]
    simp
  · rw [List.concat_eq_append] at h hcells ⊢
    have last := getLast?_entries h hlead hcells
    obtain ⟨-, -, tail, -⟩ := areCells_append_cons.mp hcells
    simp only [last]
    split
    · exact ⟨_, rfl, hasElements_of_line h hs hlead hcells hf
        (fun c hc => isBlank_of_mem_indentation hc) ‹_› last⟩
    · rcases tail_cases tail with ⟨hcomma, -⟩ | ⟨gs, rest, htail, hgs, -⟩
      · have none (place : Nat) : s.entry place =
        ⟨place, place + (textOf s.core).length, none⟩ := by
          rw [Cell.entry, commaIn_of_not_mem hcomma]
        have place : (textOf (pre ++ .plain '[' :: (lead ++ cellPieces init))).length +
            (textOf s.core).length =
              (textOf (pre ++ .plain '[' :: (lead ++ cellPieces init) ++ s.core)).length := by
          rw [textOf_append _ s.core, List.length_append]
        simp only [none, place]
        exact ⟨_, rfl, hasElements_of_open h hs hlead hcells hf⟩
      · have some := Cell.comma_entry htail hgs
          (textOf (pre ++ .plain '[' :: (lead ++ cellPieces init))).length
        have place : (textOf (pre ++ .plain '[' :: (lead ++ cellPieces init))).length +
            (textOf (s.core ++ gs)).length + 1 =
              (textOf (pre ++ .plain '[' :: (lead ++ cellPieces init) ++ (s.core ++ gs) ++
                [.plain ','])).length := by
          simp only [textOf_append, List.length_append]
          rfl
        simp only [some, place]
        exact ⟨_, rfl, hasElements_of_comma h hs hlead hcells hf htail⟩

end Merge

end SchemaDrift
