import Mathlib.Data.List.Chain
import SchemaDrift.Proofs.Code.Frame

namespace SchemaDrift.Code

/-!
# Edits of a list

A list of groups can be edited between two of its parts: what is cut in the same way wherever it
stands can take the place of some parts, and the other parts and what stands around the list stay
the same.
-/

variable {before before' : Option Char} {c close : Char} {t t' : Text} {p : Piece}
  {pre post ps qs : List Piece} {as bs ms ins parts : List Part}

/-! ## Loose quotes -/

theorem NoLooseQuote.of_infix (h : NoLooseQuote ps) (hq : qs <:+: ps) : NoLooseQuote qs :=
  fun hi => h (hi.trans hq)

theorem noLooseQuote_of_not_mem (h : .plain '\'' ∉ ps) : NoLooseQuote ps := fun hi =>
  h (hi.subset (by simp))

theorem noLooseQuote_iff_isChain :
    NoLooseQuote ps ↔ ps.IsChain fun p q => ¬ (p = .plain '\'' ∧ q = .plain '\\') := by
  rw [List.isChain_iff_forall_rel_of_append_cons_cons]
  constructor
  · rintro h p q a b rfl ⟨rfl, rfl⟩
    exact h ⟨a, b, by simp⟩
  · rintro h ⟨a, b, hab⟩
    have split : ps = a ++ .plain '\'' :: .plain '\\' :: b := by simp [← hab]
    exact h split ⟨rfl, rfl⟩

theorem NoLooseQuote.append (hp : NoLooseQuote ps) (hq : NoLooseQuote qs)
    (h : .plain '\'' ∉ ps.getLast? ∨ .plain '\\' ∉ qs.head?) : NoLooseQuote (ps ++ qs) := by
  rw [noLooseQuote_iff_isChain] at hp hq ⊢
  refine List.isChain_append.mpr ⟨hp, hq, fun p hlast q hhead => ?_⟩
  rintro ⟨rfl, rfl⟩
  exact h.elim (· hlast) (· hhead)

/-! ## Pieces that do not depend on what stands before them -/

/-- Whether the piece is a comment or a character that is no part of a literal. -/
def Piece.Leads : Piece → Prop
  | .plain c => (Piece.plain c).Seals
  | .literal _ _ => False
  | .comment _ => True

theorem comment?_of_first {cs s : Text} (h : first before c cs = .comment s) :
    comment? (c :: cs) = some (.comment s) := by
  rcases first_cases before c cs with hcomment | ⟨-, hliteral⟩ | ⟨-, -, hplain⟩
  · rw [hcomment, h]
  · obtain ⟨q, -, s, hs⟩ := exists_literal_of_literal? hliteral
    rw [h] at hs
    cases hs
  · rw [h] at hplain
    cases hplain

theorem first_of_leads {cs : Text} (h : first before c cs = p) (hp : p.Leads) :
    first before' c cs = p := by
  cases p with
  | literal q s => exact absurd hp id
  | plain d =>
    obtain ⟨tail, rest, htext, -⟩ := exists_text_eq h
    obtain ⟨rfl, -⟩ := List.cons.inj (htext : [d] = c :: tail)
    exact first_of_seals hp cs
  | comment s => exact first_of_comment (comment?_of_first h)

theorem pieces_of_leads (h : pieces 0 before t = p :: ps) (hp : p.Leads) :
    pieces 0 before' t = p :: ps := by
  cases t with
  | nil => cases h
  | cons c cs =>
    obtain ⟨hfirst, -⟩ := List.cons.inj h
    have same : first before' c cs = first before c cs :=
      (first_of_leads hfirst hp).trans hfirst.symm
    rw [← h]
    simp only [pieces, same]

/-- What starts with such a piece does not start with a quote. -/
theorem head?_ne_of_leads {rest : Text} (h : IsCut before (p :: ps) rest) (hp : p.Leads)
    (after : Text) : (textOf (p :: ps) ++ after).head? ≠ some '\'' := by
  obtain ⟨⟨c, cs, hc, hfirst⟩, -⟩ := h
  rw [textOf_cons, hc]
  intro he
  obtain rfl := Option.some.inj (he : some c = some '\'')
  cases p with
  | literal q s => exact hp
  | plain d =>
    obtain ⟨rfl, -⟩ := List.cons.inj (hc : [d] = '\'' :: cs)
    exact absurd hp (show ¬ (Piece.plain '\'').Seals by decide)
  | comment s =>
    have comment := comment?_of_first hfirst
    rw [comment?_eq_none_iff.mpr (by simp)] at comment
    cases comment

/-! ## Parts -/

theorem Part.IsSound.leads {p : Part} (h : p.IsSound) :
    ∃ q qs, p.pieces = q :: qs ∧ q.Leads ∧ q ≠ .plain '\\' := by
  cases p with
  | comma => exact ⟨_, _, rfl, (by decide : (Piece.plain ',').Seals), by decide⟩
  | group inner => exact ⟨_, _, rfl, (by decide : (Piece.plain '(').Seals), by simp⟩
  | gap p =>
    refine ⟨p, [], rfl, ?_, ?_⟩
    · cases p with
      | plain c => exact seals_of_isBlank h
      | literal q s => exact h
      | comment s => trivial
    · rintro rfl
      exact absurd h (show ¬ Text.isBlank '\\' = true by decide)

theorem seals_of_closes (h : closes close = true) : (Piece.plain close).Seals := by
  simp only [closes, Bool.or_eq_true, beq_iff_eq] at h
  rcases h with (rfl | rfl) | rfl <;> decide

theorem not_blank_of_closes (h : closes close = true) : Text.isBlank close = false := by
  simp only [closes, Bool.or_eq_true, beq_iff_eq] at h
  rcases h with (rfl | rfl) | rfl <;> decide

theorem not_opens_of_closes (h : closes close = true) : opens close = false := by
  simp only [closes, Bool.or_eq_true, beq_iff_eq] at h
  rcases h with (rfl | rfl) | rfl <;> decide

theorem leads_piecesOf (hs : ∀ p ∈ parts, p.IsSound) (hc : closes close = true)
    (post : List Piece) : ∃ q qs, piecesOf parts ++ .plain close :: post = q :: qs ∧ q.Leads ∧
      q ≠ .plain '\\' := by
  cases parts with
  | nil =>
    refine ⟨_, _, rfl, seals_of_closes hc, ?_⟩
    rintro ⟨rfl⟩
    cases hc
  | cons p parts =>
    obtain ⟨q, qs, hq, hleads, hne⟩ := (hs p List.mem_cons_self).leads
    exact ⟨q, _, by rw [piecesOf_cons, hq]; rfl, hleads, hne⟩

theorem Part.IsSound.isPaired {p : Part} (h : p.IsSound) : IsPaired p.pieces := by
  cases p with
  | comma => rfl
  | gap p => exact level_gap h 0 []
  | group inner =>
    have inside : level 1 (marks inner) = some 1 := level_add h 1
    have whole : marks (Part.group inner).pieces = '(' :: (marks inner ++ [')']) := by
      rw [Part.pieces, ← List.singleton_append, marks_append, marks_append]
      rfl
    rw [IsPaired, whole, show level 0 ('(' :: (marks inner ++ [')'])) =
      level 1 (marks inner ++ [')']) from rfl, level_append, inside]
    rfl

theorem isPaired_piecesOf (hs : ∀ p ∈ parts, p.IsSound) : IsPaired (piecesOf parts) := by
  induction parts with
  | nil => rfl
  | cons p parts ih =>
    obtain ⟨hp, hrest⟩ := List.forall_mem_cons.mp hs
    exact hp.isPaired.append (ih hrest)

/-- Blanks as parts. -/
def gapsOf (t : Text) : List Part := (plains t).map .gap

@[simp] theorem piecesOf_map_gap (ps : List Piece) : piecesOf (ps.map .gap) = ps := by
  induction ps with
  | nil => rfl
  | cons p ps ih =>
    rw [List.map_cons, piecesOf_cons, ih]
    rfl

@[simp] theorem piecesOf_gapsOf (t : Text) : piecesOf (gapsOf t) = plains t := piecesOf_map_gap _

/-- Blanks behind other pieces are parts of their own. -/
theorem exists_of_piecesOf_append_plains {w : Text} (hs : ∀ p ∈ parts, p.IsSound)
    (hw : ∀ c ∈ w, Text.isBlank c = true) (h : piecesOf parts = ps ++ plains w) :
    ∃ as, parts = as ++ gapsOf w ∧ piecesOf as = ps := by
  induction w using List.reverseRecOn generalizing parts with
  | nil => exact ⟨parts, by simp [gapsOf], by simpa using h⟩
  | append_singleton w c ih =>
    have blank : Text.isBlank c = true := hw c (by simp)
    rcases List.eq_nil_or_concat parts with rfl | ⟨init, p, rfl⟩
    · simp at h
    · rw [List.concat_eq_append] at *
      have split : piecesOf init ++ p.pieces = (ps ++ plains w) ++ [.plain c] := by simpa using h
      have ends (qs : List Piece) {d : Char} (hp : p.pieces = qs ++ [.plain d])
          (hd : Text.isBlank d = false) : False := by
        rw [hp, ← List.append_assoc] at split
        have same := (List.append_inj' split rfl).2
        simp only [List.cons.injEq, Piece.plain.injEq, and_true] at same
        rw [same, blank] at hd
        cases hd
      cases p with
      | comma => exact (ends [] rfl (by decide)).elim
      | group inner =>
        have shape : (Part.group inner).pieces = .plain '(' :: inner ++ [.plain ')'] := by
          simp [Part.pieces]
        exact (ends _ shape (by decide)).elim
      | gap g =>
        obtain ⟨hinit, hg⟩ := List.append_inj' split rfl
        obtain ⟨as, rfl, has⟩ :=
          ih (fun p hp => hs p (by simp [hp])) (fun d hd => hw d (by simp [hd])) hinit
        obtain rfl := List.singleton_inj.mp hg
        exact ⟨as, by simp [gapsOf], has⟩

/-- Blanks in front of other pieces are parts of their own. -/
theorem exists_of_piecesOf_plains_append {w : Text} (hw : ∀ c ∈ w, Text.isBlank c = true)
    (h : piecesOf parts = plains w ++ ps) : ∃ bs, parts = gapsOf w ++ bs ∧ piecesOf bs = ps := by
  induction w generalizing parts with
  | nil => exact ⟨parts, rfl, h⟩
  | cons c w ih =>
    obtain ⟨hc, hrest⟩ := List.forall_mem_cons.mp hw
    have starts {d : Char} {rest : List Piece} (hd : .plain d :: rest = plains (c :: w) ++ ps)
        (hb : Text.isBlank d = false) : False := by
      obtain ⟨rfl⟩ := (List.cons.inj hd).1
      rw [hc] at hb
      cases hb
    cases parts with
    | nil => simp at h
    | cons p parts =>
      cases p with
      | comma => exact (starts h (by decide)).elim
      | group inner => exact (starts h (by decide)).elim
      | gap g =>
        obtain ⟨rfl, htail⟩ :=
          List.cons.inj (h : g :: piecesOf parts = .plain c :: (plains w ++ ps))
        obtain ⟨bs, rfl, hbs⟩ := ih hrest htail
        exact ⟨bs, rfl, hbs⟩

/-! ## Parts that can be put into a list -/

theorem not_quote_of_gaps {gs : List Piece} (h : ∀ g ∈ gs, IsGap g) : .plain '\'' ∉ gs := fun hm =>
  absurd (h _ hm) (show ¬ Text.isBlank '\'' = true by decide)

theorem isGap_plains {w : Text} (h : ∀ c ∈ w, Text.isBlank c = true) : ∀ g ∈ plains w, IsGap g := by
  intro g hg
  obtain ⟨c, hc, rfl⟩ := List.mem_map.mp hg
  exact h c hc

theorem isSound_map_gap {gs : List Piece} (h : ∀ g ∈ gs, IsGap g) :
    ∀ p ∈ gs.map Part.gap, p.IsSound := by
  intro p hp
  obtain ⟨g, hg, rfl⟩ := List.mem_map.mp hp
  exact h g hg

/-- Parts that are cut in the same way wherever they stand. -/
structure Insertable (ps : List Part) : Prop where
  sound : ∀ p ∈ ps, p.IsSound
  cuts : Cuts (piecesOf ps)
  not_quote : .plain '\'' ∉ piecesOf ps

theorem Insertable.append (ha : Insertable as) (hb : Insertable bs) : Insertable (as ++ bs) where
  sound := List.forall_mem_append.mpr ⟨ha.sound, hb.sound⟩
  cuts := piecesOf_append as bs ▸ ha.cuts.append hb.cuts
  not_quote := by
    rw [piecesOf_append, List.mem_append, not_or]
    exact ⟨ha.not_quote, hb.not_quote⟩

theorem insertable_gaps {gs : List Piece} (hgs : ∀ g ∈ gs, IsGap g) (hcuts : Cuts gs) :
    Insertable (gs.map .gap) where
  sound := isSound_map_gap hgs
  cuts := (piecesOf_map_gap gs).symm ▸ hcuts
  not_quote := (piecesOf_map_gap gs).symm ▸ not_quote_of_gaps hgs

theorem insertable_gapsOf {w : Text} (h : ∀ c ∈ w, Text.isBlank c = true) : Insertable (gapsOf w) :=
  insertable_gaps (isGap_plains h) (cuts_blanks h)

theorem insertable_comma : Insertable [.comma] where
  sound := by simp [Part.IsSound]
  cuts := cuts_plains_of_seals (t := [',']) (by decide)
  not_quote := by decide

theorem insertable_group {inner : List Piece} (hinner : IsPaired inner)
    (hcuts : Cuts (Part.group inner).pieces) (hquote : .plain '\'' ∉ inner) :
    Insertable [.group inner] where
  sound := List.forall_mem_singleton.mpr hinner
  cuts := by simpa using hcuts
  not_quote := by simp [Part.pieces, hquote]

theorem seals_newline (ps : List Part) :
    ∀ p ∈ (piecesOf (ps ++ [.gap (.plain '\n')])).getLast?, p.Seals := by
  have shape : piecesOf [.gap (.plain '\n')] = [Piece.plain '\n'] := rfl
  rw [piecesOf_append, shape, List.getLast?_concat]
  rintro _ ⟨⟩
  decide

theorem seals_group (ps : List Part) (inner : List Piece) :
    ∀ p ∈ (piecesOf (ps ++ [.group inner])).getLast?, p.Seals := by
  have shape : piecesOf [.group inner] = (.plain '(' :: inner) ++ [.plain ')'] := by
    simp [Part.pieces]
  rw [piecesOf_append, shape, ← List.append_assoc, List.getLast?_concat]
  rintro _ ⟨⟩
  decide

/-! ## Lists of fields -/

/-- The elements of the list of fields, as they are written. -/
def entryTexts (t : Text) : List Text :=
  match fieldsList? t with
  | none => []
  | some (opening, closing) => (entries t opening closing).map fun e => Text.slice t e.start e.stop

/-- Whether a place lies outside the list of fields, whose brackets do not belong to its inside. -/
def isOutside (t : Text) (place : Nat) : Bool :=
  match fieldsList? t with
  | none => true
  | some (opening, closing) => decide (place ≤ opening) || decide (closing ≤ place)

/-- The code outside the list of fields without its blanks. -/
def codeOutside (t : Text) : List Char :=
  (((items t).filter fun i => isOutside t i.start).map Item.mark).filter fun c => !Text.isBlank c

/-- A text whose list of fields has the given parts and stands between the given pieces. -/
structure Listed (t : Text) (pre : List Piece) (parts : List Part) (post : List Piece)
    (close : Char) : Prop where
  framed : Framed t pre (piecesOf parts) post close
  sound : ∀ p ∈ parts, p.IsSound
  quotes : NoLooseQuote (pieces 0 none t)

namespace Listed

theorem pieces_eq (h : Listed t pre (as ++ bs) post close) :
    pieces 0 none t = (pre ++ .plain '[' :: piecesOf as) ++
      (piecesOf bs ++ .plain close :: post) := by
  rw [h.framed.pieces_eq]
  simp

/-- Other parts can take the place of some parts, if what stands before them is cut in the same way
in front of any text. -/
theorem replace (h : Listed t pre (as ++ (ms ++ bs)) post close)
    (hlast : ∀ p ∈ (piecesOf as).getLast?, p.Seals) (hins : Insertable ins) :
    Listed (textOf (pre ++ .plain '[' :: piecesOf as) ++
      (textOf (piecesOf ins) ++ textOf (piecesOf bs ++ .plain close :: post)))
        pre (as ++ (ins ++ bs)) post close := by
  have hclose := h.framed.closes
  have soundAs : ∀ p ∈ as, p.IsSound := fun p hp => h.sound p (by simp [hp])
  have soundBs : ∀ p ∈ bs, p.IsSound := fun p hp => h.sound p (by simp [hp])
  have sound : ∀ p ∈ as ++ (ins ++ bs), p.IsSound := by
    simp only [List.mem_append]
    rintro p (hp | hp | hp)
    · exact soundAs p hp
    · exact hins.sound p hp
    · exact soundBs p hp
  -- What stands before the new parts ends with a piece that seals it.
  obtain ⟨front, p, hfront, hseals⟩ : ∃ front p, pre ++ .plain '[' :: piecesOf as = front ++ [p] ∧
      p.Seals := by
    rcases List.eq_nil_or_concat (piecesOf as) with hnil | ⟨init, p, hp⟩
    · exact ⟨pre, .plain '[', by rw [hnil], by decide⟩
    · rw [List.concat_eq_append] at hp
      exact ⟨pre ++ .plain '[' :: init, p, by simp [hp], hlast p (by simp [hp])⟩
  have whole := h.pieces_eq
  rw [hfront] at whole ⊢
  have right : pieces 0 none t = (front ++ [p] ++ piecesOf ms) ++
      (piecesOf bs ++ .plain close :: post) := by
    rw [whole]
    simp
  obtain ⟨-, hcut, -⟩ := isCut_of_pieces whole
  obtain ⟨-, -, hright⟩ := isCut_of_pieces right
  have quotes := h.quotes
  rw [right] at quotes
  obtain ⟨q, qs, hq, hleads, hslash⟩ := leads_piecesOf soundBs hclose post
  rw [hq] at hright
  have filled : textOf (piecesOf (ms ++ bs) ++ .plain close :: post) ≠ [] := by
    simp [Piece.text]
  have head : (textOf (piecesOf ins) ++ textOf (q :: qs)).head? ≠ some '\'' := by
    cases ins with
    | nil =>
      have own : pieces 0 (lastOf none (textOf (front ++ [p] ++ piecesOf ms))) (textOf (q :: qs)) =
        (q :: qs) ++ [] := by rw [hright, List.append_nil]
      simpa using head?_ne_of_leads (isCut_of_pieces own).2.1 hleads []
    | cons i ins =>
      obtain ⟨r, rs, hr, hleads', -⟩ := (hins.sound i List.mem_cons_self).leads
      have cuts := hins.cuts
      rw [piecesOf_cons, hr, List.cons_append] at cuts ⊢
      exact head?_ne_of_leads (cuts none []) hleads' _
  have quotesFront : NoLooseQuote (front ++ [p]) :=
    quotes.of_infix ⟨[], _, by rw [List.nil_append, List.append_assoc (front ++ [p])]⟩
  have cut := hcut.exchange hseals quotesFront filled head
  have cutting : pieces 0 none (textOf (front ++ [p]) ++ (textOf (piecesOf ins) ++
      textOf (q :: qs))) = front ++ [p] ++ (piecesOf ins ++ (q :: qs)) := by
    rw [pieces_textOf_append cut, hins.cuts.pieces_append, pieces_of_leads hright hleads]
  rw [hq]
  refine ⟨h.framed.exchange ?_ (isPaired_piecesOf sound), sound, ?_⟩
  · rw [cutting, ← hq, ← List.append_assoc, ← hfront]
    simp
  · -- A seal is no quote, and no part and no bracket starts with a backslash.
    have notQuote : .plain '\'' ∉ (front ++ [p]).getLast? := by
      rw [List.getLast?_append, List.getLast?_singleton, Option.some_or]
      rintro ⟨rfl⟩
      exact absurd hseals (by decide)
    have behind : NoLooseQuote (piecesOf ins ++ (q :: qs)) :=
      (noLooseQuote_of_not_mem hins.not_quote).append
        (quotes.of_infix ⟨front ++ [p] ++ piecesOf ms, [], by simp [hq]⟩)
        (.inr fun he => hslash (Option.some.inj he))
    rw [cutting]
    exact quotesFront.append behind (.inl notQuote)

theorem text_eq (h : Listed t pre (as ++ bs) post close) :
    t = textOf (pre ++ .plain '[' :: piecesOf as) ++ textOf (piecesOf bs ++ .plain close :: post) :=
  (isCut_of_pieces h.pieces_eq).1

theorem entries_eq (h : Listed t pre parts post close) (ha : Alternate false parts) :
    entries t (textOf pre).length ((textOf pre).length + 1 + (textOf (piecesOf parts)).length) =
      entriesAt ((textOf pre).length + 1) parts := by
  rw [h.framed.entries_eq, entriesOf_parts h.sound none ha]
  rfl

theorem entryTexts_eq (h : Listed t pre parts post close) (ha : Alternate false parts) :
    entryTexts t = elementsOf parts := by
  have texts := map_slice_entriesAt (textOf (pre ++ [.plain '[']))
    (textOf (.plain close :: post)) parts
  have whole : t = textOf (pre ++ [.plain '[']) ++ (textOf (piecesOf parts) ++
      textOf (.plain close :: post)) := by
    rw [(isCut_of_pieces h.framed.pieces_body).1, textOf_append (piecesOf parts)]
  rw [Framed.length_opening, ← whole] at texts
  rw [entryTexts, h.framed.fieldsList?_eq]
  simp only [h.entries_eq ha]
  exact texts

theorem codeOutside_eq (h : Listed t pre parts post close) :
    codeOutside t = (marks (pre ++ .plain '[' :: .plain close :: post)).filter
      fun c => !Text.isBlank c := by
  have whole : pieces 0 none t = pre ++ [.plain '['] ++ piecesOf parts ++ .plain close :: post := by
    rw [h.framed.pieces_eq]
    simp
  have solid : Solid (pre ++ [.plain '['] ++ piecesOf parts) := solid_left whole
  have opening : (textOf (pre ++ [.plain '['])).length = (textOf pre).length + 1 :=
    Framed.length_opening
  have closing : (textOf (pre ++ [.plain '['] ++ piecesOf parts)).length =
      (textOf pre).length + 1 + (textOf (piecesOf parts)).length := by
    rw [textOf_append, List.length_append, opening]
  have outside (i : Item) : isOutside t i.start = (decide (i.start ≤ (textOf pre).length) ||
      decide ((textOf pre).length + 1 + (textOf (piecesOf parts)).length ≤ i.start)) := by
    rw [isOutside, h.framed.fieldsList?_eq]
  have left : (itemsOf 0 (pre ++ [.plain '['])).filter (fun i => isOutside t i.start) =
      itemsOf 0 (pre ++ [.plain '[']) := by
    refine List.filter_eq_self.mpr fun i hi => ?_
    have hlt := lt_stop_of_mem_itemsOf (fun p hp => solid p (List.mem_append_left _ hp)) hi
    have hstop := (bounds_of_mem_itemsOf hi).2
    rw [outside, Bool.or_eq_true, decide_eq_true_eq]
    left
    omega
  have middle : (itemsOf ((textOf pre).length + 1) (piecesOf parts)).filter
      (fun i => isOutside t i.start) = [] := by
    refine List.filter_eq_nil_iff.mpr fun i hi => ?_
    have hlt := lt_stop_of_mem_itemsOf (fun p hp => solid p (List.mem_append_right _ hp)) hi
    obtain ⟨hstart, hstop⟩ := bounds_of_mem_itemsOf hi
    rw [outside, Bool.or_eq_true, decide_eq_true_eq, decide_eq_true_eq]
    omega
  have right : (itemsOf ((textOf pre).length + 1 + (textOf (piecesOf parts)).length)
      (.plain close :: post)).filter (fun i => isOutside t i.start) =
        itemsOf ((textOf pre).length + 1 + (textOf (piecesOf parts)).length)
          (.plain close :: post) := by
    refine List.filter_eq_self.mpr fun i hi => ?_
    have hstart := (bounds_of_mem_itemsOf hi).1
    rw [outside, Bool.or_eq_true, decide_eq_true_eq, decide_eq_true_eq]
    exact .inr hstart
  rw [codeOutside, items, whole, itemsOf_append, itemsOf_append, Nat.zero_add, Nat.zero_add,
    closing, opening, List.filter_append, List.filter_append, left, middle, right, List.append_nil,
    List.map_append, map_mark_itemsOf, map_mark_itemsOf, ← marks_append]
  simp

/-- The blanks of a line in front of a part are parts of their own, and so is the end of the line
above. -/
theorem exists_of_line (h : Listed t pre (as ++ bs) post close) {u w : Text}
    (ht : textOf (pre ++ .plain '[' :: piecesOf as) = u ++ '\n' :: w)
    (hw : ∀ c ∈ w, Text.isBlank c = true) :
    ∃ as', as = as' ++ gapsOf ('\n' :: w) ∧ textOf (pre ++ .plain '[' :: piecesOf as') = u := by
  have filled : textOf (piecesOf bs ++ .plain close :: post) ≠ [] := by simp [Piece.text]
  obtain ⟨qs, hqs, hu⟩ := Code.exists_of_line (isCut_of_pieces h.pieces_eq).2.1 filled ht hw
  have blanks : ∀ c ∈ '\n' :: w, Text.isBlank c = true :=
    List.forall_mem_cons.mpr ⟨by decide, hw⟩
  rw [← List.singleton_append, ← List.append_assoc] at hqs
  rcases List.append_eq_append_iff.mp hqs with ⟨k, rfl, hk⟩ | ⟨k, hk, hplains⟩
  · obtain ⟨as', rfl, rfl⟩ := exists_of_piecesOf_append_plains
      (fun p hp => h.sound p (by simp [hp])) blanks hk
    exact ⟨as', rfl, by simpa using hu⟩
  · -- The opening bracket is no blank.
    rcases List.eq_nil_or_concat k with rfl | ⟨init, p, rfl⟩
    · rw [List.append_nil] at hk
      rw [List.nil_append] at hplains
      have all : piecesOf as = [] ++ plains ('\n' :: w) := hplains.symm
      obtain ⟨as', rfl, has⟩ := exists_of_piecesOf_append_plains
        (fun p hp => h.sound p (by simp [hp])) blanks all
      exact ⟨as', rfl, by rw [has, ← hu, ← hk]⟩
    · rw [List.concat_eq_append] at hk hplains
      rw [← List.append_assoc] at hk
      obtain rfl := List.singleton_inj.mp (List.append_inj' hk rfl).2
      obtain ⟨c, hc, he⟩ : ∃ c ∈ '\n' :: w, Piece.plain c = .plain '[' :=
        List.mem_map.mp (show .plain '[' ∈ plains ('\n' :: w) by simp [hplains])
      obtain rfl := Piece.plain.inj he
      exact absurd (blanks _ hc) (by decide)

/-- The blanks of a line behind a part are parts of their own, and so is its end. -/
theorem exists_of_line_behind (h : Listed t pre (as ++ bs) post close) {w z : Text}
    (ht : textOf (piecesOf bs ++ .plain close :: post) = w ++ '\n' :: z)
    (hw : ∀ c ∈ w, Text.isBlank c = true) :
    ∃ bs', bs = gapsOf (w ++ ['\n']) ++ bs' ∧
      textOf (piecesOf bs' ++ .plain close :: post) = z := by
  have blanks : ∀ c ∈ w ++ ['\n'], Text.isBlank c = true :=
    List.forall_mem_append.mpr ⟨hw, by decide⟩
  obtain ⟨-, -, hpieces⟩ := isCut_of_pieces h.pieces_eq
  have line : textOf (piecesOf bs ++ .plain close :: post) =
      textOf (plains (w ++ ['\n'])) ++ z := by
    rw [ht, textOf_plains]
    simp
  obtain ⟨zs, cut, rest⟩ : ∃ zs, piecesOf bs ++ .plain close :: post = plains (w ++ ['\n']) ++ zs ∧
      z = textOf zs := by
    have cut := (cuts_blanks blanks).pieces_append
      (lastOf none (textOf (pre ++ .plain '[' :: piecesOf as))) z
    rw [← line, hpieces] at cut
    obtain ⟨hz, -, -⟩ := isCut_of_pieces (hpieces.trans cut)
    rw [line] at hz
    exact ⟨_, cut, List.append_cancel_left hz⟩
  rw [rest]
  rcases List.append_eq_append_iff.mp cut with ⟨k, hk, htail⟩ | ⟨k, hk, htail⟩
  · cases k with
    | nil =>
      have all : piecesOf bs = plains (w ++ ['\n']) ++ [] := by
        rw [hk, List.append_nil, List.append_nil]
      obtain ⟨bs', rfl, hbs⟩ := exists_of_piecesOf_plains_append blanks all
      exact ⟨bs', rfl, by rw [hbs, htail]; rfl⟩
    | cons p k =>
      -- The closing bracket is no blank.
      obtain ⟨rfl, -⟩ := List.cons.inj htail
      obtain ⟨c, hc, he⟩ : ∃ c ∈ w ++ ['\n'], Piece.plain c = .plain close :=
        List.mem_map.mp (show .plain close ∈ plains (w ++ ['\n']) by rw [hk]; simp)
      obtain rfl := Piece.plain.inj he
      have blank := blanks _ hc
      rw [not_blank_of_closes h.framed.closes] at blank
      cases blank
  · obtain ⟨bs', rfl, rfl⟩ := exists_of_piecesOf_plains_append blanks hk
    exact ⟨bs', rfl, by rw [htail]⟩

end Listed

/-- A list of fields whose entries are groups is a list of parts. -/
theorem exists_listed {opening closing : Nat} (h : fieldsList? t = some (opening, closing))
    (hg : ∀ e ∈ entries t opening closing, IsGroup t e) (hq : NoLooseQuote (pieces 0 none t)) :
    ∃ pre parts post close, Listed t pre parts post close ∧ Alternate false parts := by
  obtain ⟨pre, body, post, close, hframed, rfl, rfl⟩ := exists_framed h
  have grouped : Grouped t (pre ++ [.plain '[']) body (.plain close :: post) none := by
    refine ⟨hframed.pieces_body, hframed.isPaired, nofun, nofun, ?_⟩
    rw [Framed.length_opening]
    exact hframed.entries_eq ▸ hg
  obtain ⟨parts, hsound, halternate, rfl⟩ := grouped.exists_parts
  exact ⟨pre, parts, post, close, ⟨hframed, hsound, hq⟩, halternate⟩

end SchemaDrift.Code
