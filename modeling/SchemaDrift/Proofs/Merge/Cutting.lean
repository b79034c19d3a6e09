import SchemaDrift.Merge.Edit
import SchemaDrift.Proofs.Code.Lines
import SchemaDrift.Proofs.Code.Listed
import SchemaDrift.Proofs.Text.Ends

namespace SchemaDrift

/-!
# Fields that are commented out

The lines of an entry become a gap of the list. The other entries and what stands around the list
stay as they are.
-/

namespace Code

variable {t : Text} {as bs parts : List Part} {isOpen : Bool}

/-! ## Open elements -/

/-- Whether an element is open behind some parts, if one `isOpen` in front of them. -/
def openAfter (isOpen : Bool) : List Part → Bool
  | [] => isOpen
  | .gap _ :: rest => openAfter isOpen rest
  | .comma :: rest => openAfter false rest
  | .group _ :: rest => openAfter true rest

@[simp] theorem openAfter_append (isOpen : Bool) (as bs : List Part) :
    openAfter isOpen (as ++ bs) = openAfter (openAfter isOpen as) bs := by
  induction as generalizing isOpen with
  | nil => rfl
  | cons p as ih => cases p <;> exact ih _

theorem alternate_append : Alternate isOpen (as ++ bs) ↔
    Alternate isOpen as ∧ Alternate (openAfter isOpen as) bs := by
  induction as generalizing isOpen with
  | nil => simp [Alternate, openAfter]
  | cons p as ih => cases p <;> simp [Alternate, openAfter, ih, and_assoc]

theorem openAfter_gaps (gs : List Piece) : openAfter isOpen (gs.map .gap) = isOpen := by
  induction gs with
  | nil => rfl
  | cons g gs ih => exact ih

theorem alternate_gaps (gs : List Piece) : Alternate isOpen (gs.map .gap) := by
  induction gs with
  | nil => trivial
  | cons g gs ih => exact ih

@[simp] theorem elementsOf_gaps (gs : List Piece) : elementsOf (gs.map .gap) = [] := by
  induction gs with
  | nil => rfl
  | cons g gs ih => exact ih

/-- Behind an open element only gaps stand up to the next comma. -/
theorem exists_gaps (h : Alternate true parts) :
    ∃ gs : List Piece, parts = gs.map .gap ∨ ∃ cs, parts = gs.map .gap ++ .comma :: cs := by
  induction parts with
  | nil => exact ⟨[], .inl rfl⟩
  | cons p parts ih =>
    cases p with
    | comma => exact ⟨[], .inr ⟨parts, rfl⟩⟩
    | group inner => cases h.1
    | gap g =>
      obtain ⟨gs, rfl | ⟨cs, rfl⟩⟩ := ih h
      · exact ⟨g :: gs, .inl rfl⟩
      · exact ⟨g :: gs, .inr ⟨cs, rfl⟩⟩

/-- Blanks behind the last group are among the gaps behind it. -/
theorem exists_of_gaps_suffix {inner gs : List Piece} {w : Text}
    (h : as ++ .group inner :: gs.map .gap = bs ++ gapsOf w) :
    ∃ k, bs = as ++ .group inner :: k ∧ gs.map .gap = k ++ gapsOf w := by
  have split : (as ++ [.group inner]) ++ gs.map .gap = bs ++ gapsOf w := by simpa using h
  rcases List.append_eq_append_iff.mp split with ⟨k, rfl, hk⟩ | ⟨k, hk, hgaps⟩
  · exact ⟨k, by simp, hk⟩
  · rcases List.eq_nil_or_concat k with rfl | ⟨init, p, rfl⟩
    · exact ⟨[], by simpa using hk.symm, hgaps.symm⟩
    · rw [List.concat_eq_append, ← List.append_assoc] at hk
      obtain rfl := List.singleton_inj.mp (List.append_inj' hk rfl).2
      have member : Part.group inner ∈ gapsOf w := by
        rw [hgaps]
        simp
      obtain ⟨g, -, hg⟩ := List.mem_map.mp member
      cases hg

/-! ## Ends of declarations -/

/-- Inside brackets a declaration goes on. -/
theorem endFrom_append {depth d : Nat} {a : List Item} (h : level depth (a.map Item.mark) = some d)
    (b : List Item) : endFrom (depth + 1) (a ++ b) = endFrom (d + 1) b := by
  induction a generalizing depth with
  | nil => rw [← Option.some.inj h]; rfl
  | cons i a ih =>
    have deep : ¬ ((i.mark = ',' ∨ i.mark = ';') ∧ ((depth : Int) + 1) = 0) := by omega
    simp only [List.map_cons, level, List.cons_append, endFrom, if_neg deep] at h ⊢
    split at h
    · rename_i hopen
      rw [if_pos hopen]
      exact_mod_cast ih h
    · rename_i hopen
      rw [if_neg hopen]
      split at h
      · rename_i hclose
        cases depth with
        | zero => cases h
        | succ depth =>
          have less : ((depth + 1 : Nat) : Int) + 1 - 1 = depth + 1 := by omega
          have inside : ¬ ((depth : Int) + 1 < 0) := by omega
          have notBody : ¬ ((depth : Int) + 1 = 0 ∧ i.mark = '\x7d') := by omega
          rw [if_pos hclose, less, if_neg inside, if_neg notBody]
          exact ih h
      · rename_i hclose
        rw [if_neg hclose]
        exact ih h

theorem endFrom_gaps {gs : List Piece} (h : ∀ g ∈ gs, IsGap g) (place : Nat) (rest : List Item) :
    endFrom 0 (itemsOf place gs ++ rest) = endFrom 0 rest := by
  induction gs generalizing place with
  | nil => rfl
  | cons g gs ih =>
    obtain ⟨hg, hgs⟩ := List.forall_mem_cons.mp h
    cases g with
    | literal q s => exact absurd hg id
    | comment s => exact ih hgs _
    | plain c =>
      have blank : Text.isBlank c = true := hg
      have notEnd : ¬ (c = ',' ∨ c = ';') := by
        rintro (rfl | rfl) <;> cases blank
      obtain ⟨hopen, hclose⟩ := not_bracket_of_isBlank blank
      have step : endFrom 0 (itemsOf place (.plain c :: gs) ++ rest) =
          endFrom 0 (itemsOf (place + 1) gs ++ rest) := by
        simp [itemsOf, Piece.mark?, endFrom, notEnd, hopen, hclose, Piece.text]
      rw [step, ih hgs]

theorem endFrom_group {inner : List Piece} (h : IsPaired inner) (place : Nat) (rest : List Item) :
    endFrom 0 (itemsOf place (Part.group inner).pieces ++ rest) = endFrom 0 rest := by
  have closed : level 0 ((itemsOf (place + 1) inner).map Item.mark) = some 0 := by
    rw [map_mark_itemsOf]
    exact h
  rw [itemsOf_group, List.cons_append, List.append_assoc, List.singleton_append]
  exact (endFrom_append closed _).trans rfl

/-- How far the declaration of an entry reaches, and what stands behind it: it takes in the comma,
or stops in front of the blanks before the bracket. -/
inductive Reach (inner : List Piece) (close : Char) (post : List Piece) :
    List Part → Text → Text → Prop
  | comma (gs : List Piece) (cs : List Part) :
      Reach inner close post (gs.map .gap ++ .comma :: cs)
        ((Part.group inner).text ++ (textOf gs ++ [',']))
          (textOf (piecesOf cs ++ .plain close :: post))
  | close {gs : List Piece} {m r : Text} (hgs : textOf gs = m ++ r)
      (hm : Text.trimEnd (textOf gs) = m) (hr : ∀ c ∈ r, Text.isBlank c = true) :
      Reach inner close post (gs.map .gap) ((Part.group inner).text ++ m)
        (r ++ close :: textOf post)

section Reach

variable {inner post : List Piece} {close : Char} {m b : Text}

theorem exists_reach (inner : List Piece) (close : Char) (post : List Piece)
    (h : Alternate true bs) : ∃ m b, Reach inner close post bs m b := by
  obtain ⟨gs, rfl | ⟨cs, rfl⟩⟩ := exists_gaps h
  · obtain ⟨m, r, hgs, hr, htrim⟩ :=
      Text.exists_trimEnd_append (show Text.isBlank ')' = false by decide) [] (textOf gs)
    rw [List.nil_append, Text.trimEnd_cons_of_not_blank (by decide)] at htrim
    exact ⟨_, _, .close hgs (List.cons.inj htrim).2 hr⟩
  · exact ⟨_, _, .comma gs cs⟩

theorem text_group (inner : List Piece) :
    (Part.group inner).text = '(' :: textOf inner ++ [')'] := by
  simp [Part.text, Part.pieces, Piece.text]

theorem Reach.text_eq (h : Reach inner close post bs m b) :
    textOf (piecesOf (.group inner :: bs) ++ .plain close :: post) = m ++ b := by
  cases h with
  | comma gs cs => simp [Part.text, Part.pieces, Piece.text]
  | @close gs m r hgs _ _ =>
    rw [piecesOf_cons, piecesOf_map_gap, textOf_append (_ ++ _), textOf_append _ gs, hgs]
    simp [Part.text, Piece.text]

/-- The closing bracket stands behind the declaration. -/
theorem Reach.mem (h : Reach inner close post bs m b) : close ∈ b := by
  cases h with
  | comma gs cs => simp [Piece.text]
  | close _ _ _ => simp

end Reach

/-! ## Lines of a list that become comments -/

/-- Whether the second list is the first one with lines of their own, on which no other entry
stands, exchanged for gaps. -/
inductive Cleared (entry : Text) : List Part → List Part → Prop
  | lines {front cut rest : List Part} {gs : List Piece} (hfront : openAfter false front = false)
      (hcut : elementsOf cut = [entry]) (hline : ∃ x, textOf (piecesOf cut) = x ++ ['\n'])
      (hrest : Alternate false rest) :
      Cleared entry (front ++ .gap (.plain '\n') :: (cut ++ rest))
        (front ++ .gap (.plain '\n') :: (gs.map .gap ++ .gap (.plain '\n') :: rest))

theorem Cleared.alternate {entry : Text} (h : Cleared entry as bs) (ha : Alternate false as) :
    Alternate false bs := by
  obtain ⟨hfront, -, -, hrest⟩ := h
  refine alternate_append.mpr ⟨(alternate_append.mp ha).1, ?_⟩
  rw [hfront, Alternate, alternate_append, openAfter_gaps]
  exact ⟨alternate_gaps _, hrest⟩

namespace Listed

variable {pre post : List Piece} {close : Char} {marker t' m b : Text} {inner : List Piece}
  {gs : List Piece}

theorem text_reach (h : Listed t pre (as ++ .group inner :: bs) post close)
    (hreach : Reach inner close post bs m b) :
    t = textOf (pre ++ .plain '[' :: piecesOf as) ++ (m ++ b) := by
  rw [h.text_eq, hreach.text_eq]

/-- The declaration of an entry ends where it reaches to. -/
theorem declarationEnd?_eq (h : Listed t pre (as ++ .group inner :: bs) post close)
    (hreach : Reach inner close post bs m b) :
    ∃ stop, declarationEnd? t (textOf (pre ++ .plain '[' :: piecesOf as)).length = some stop ∧
      stop.after t = (textOf (pre ++ .plain '[' :: piecesOf as) ++ m).length := by
  have closed : IsPaired inner := h.sound (.group inner) (by simp)
  rw [declarationEnd?, itemsFrom_of_pieces h.pieces_eq, piecesOf_cons, List.append_assoc,
    itemsOf_append, endFrom_group closed]
  have text := h.text_reach hreach
  cases hreach with
  | comma gs cs =>
    have gap : ∀ g ∈ gs, IsGap g := fun g hg => h.sound (.gap g) (by simp [hg])
    have regroup : piecesOf (gs.map .gap ++ .comma :: cs) ++ .plain close :: post =
        gs ++ .plain ',' :: (piecesOf cs ++ .plain close :: post) := by
      simp [Part.pieces]
    rw [regroup, itemsOf_append, endFrom_gaps gap]
    refine ⟨_, rfl, ?_⟩
    simp only [End.after, List.length_append, List.length_singleton, Part.text]
    omega
  | @close gs m r hgs htrim _ =>
    have gap : ∀ g ∈ gs, IsGap g := fun g hg => h.sound (.gap g) (by simp [hg])
    have notOpen := not_opens_of_closes h.framed.closes
    have notEnd : ¬ (close = ',' ∨ close = ';') := by
      rintro (rfl | rfl) <;> exact absurd h.framed.closes (by decide)
    rw [piecesOf_map_gap, itemsOf_append, endFrom_gaps gap]
    simp only [itemsOf, Piece.mark?, endFrom, notEnd, false_and, if_false, notOpen,
      Bool.false_eq_true, h.framed.closes, if_true]
    refine ⟨_, rfl, ?_⟩
    -- The blanks in front of the bracket are trimmed.
    have place : (textOf (pre ++ .plain '[' :: piecesOf as)).length +
        (textOf (Part.group inner).pieces).length + (textOf gs).length =
          (textOf (pre ++ .plain '[' :: piecesOf as) ++ (Part.group inner).text ++
            textOf gs).length := by
      simp only [List.length_append, Part.text]
    have whole : t = textOf (pre ++ .plain '[' :: piecesOf as) ++ (Part.group inner).text ++
        textOf gs ++ close :: textOf post := by
      rw [text, List.append_assoc _ (textOf gs), hgs]
      simp
    have filled : textOf (pre ++ .plain '[' :: piecesOf as) ++ (Part.group inner).text ≠ [] := by
      simp [text_group]
    have last : ∀ c ∈
        (textOf (pre ++ .plain '[' :: piecesOf as) ++ (Part.group inner).text).getLast?,
        Text.isBlank c = false := by
      rw [text_group, ← List.append_assoc, List.getLast?_concat]
      rintro c ⟨rfl⟩
      decide
    rw [End.after, place, whole, List.take_left, Text.trimEnd_append filled last, htrim,
      List.append_assoc]

/-- The lines of an entry with a comma behind it. -/
theorem exists_cut_of_comma
    (h : Listed t pre (as ++ .group inner :: (gs.map .gap ++ .comma :: bs)) post close)
    (ha : Alternate false (as ++ .group inner :: (gs.map .gap ++ .comma :: bs))) {w z : Text}
    (hb : textOf (piecesOf bs ++ .plain close :: post) = w ++ '\n' :: z)
    (hw : ∀ c ∈ w, Text.isBlank c = true) :
    ∃ cut rest, .group inner :: (gs.map .gap ++ .comma :: bs) = cut ++ rest ∧
      textOf (piecesOf rest ++ .plain close :: post) = z ∧
        elementsOf cut = [(Part.group inner).text] ∧ Alternate false rest := by
  have regroup : as ++ .group inner :: (gs.map .gap ++ .comma :: bs) =
      (as ++ .group inner :: (gs.map .gap ++ [.comma])) ++ bs := by simp
  rw [regroup] at h ha
  obtain ⟨rest, rfl, hz⟩ := h.exists_of_line_behind hb hw
  refine ⟨.group inner :: (gs.map .gap ++ .comma :: gapsOf (w ++ ['\n'])), rest,
    by simp, hz, ?_, ?_⟩
  · have own : elementsOf (.group inner :: (gs.map .gap ++ .comma :: gapsOf (w ++ ['\n']))) =
        (Part.group inner).text :: (elementsOf (gs.map .gap) ++
          elementsOf (gapsOf (w ++ ['\n']))) := by
      simp [elementsOf]
    rw [own, elementsOf_gaps, gapsOf, elementsOf_gaps, List.append_nil]
  · have behind := (alternate_append.mp (alternate_append.mp ha).2).2
    rwa [openAfter_append, gapsOf, openAfter_gaps, openAfter, openAfter_append, openAfter_gaps]
      at behind

/-- The lines of the last entry, behind which the list ends. -/
theorem exists_cut_of_close (h : Listed t pre (as ++ .group inner :: gs.map .gap) post close)
    {r w z : Text} (hs : (Part.group inner).text ++ textOf gs = m ++ r)
    (hr : ∀ c ∈ r, Text.isBlank c = true) (hb : r ++ close :: textOf post = w ++ '\n' :: z)
    (hw : ∀ c ∈ w, Text.isBlank c = true) :
    ∃ cut rest, .group inner :: gs.map .gap = cut ++ rest ∧
      textOf (piecesOf rest ++ .plain close :: post) = z ∧
        elementsOf cut = [(Part.group inner).text] ∧ Alternate false rest := by
  have notBlank := not_blank_of_closes h.framed.closes
  obtain ⟨r', rfl, rfl⟩ : ∃ r', r = w ++ '\n' :: r' ∧ z = r' ++ close :: textOf post := by
    have split : r ++ close :: textOf post = (w ++ ['\n']) ++ z := by simpa using hb
    rcases List.append_eq_append_iff.mp split with ⟨k, hk, hz⟩ | ⟨k, hk, hz⟩
    · cases k with
      | nil => exact ⟨[], by simpa using hk.symm, by simpa using hz.symm⟩
      | cons c k =>
        obtain ⟨rfl, -⟩ := List.cons.inj hz
        have blank : Text.isBlank close = true :=
          List.forall_mem_append.mpr ⟨hw, by decide⟩ close
            (hk ▸ List.mem_append_right r List.mem_cons_self)
        rw [notBlank] at blank
        cases blank
    · exact ⟨k, by simpa using hk, hz⟩
  have line : textOf (pre ++ .plain '[' :: piecesOf (as ++ .group inner :: gs.map .gap)) =
      (textOf (pre ++ .plain '[' :: piecesOf as) ++ m ++ w) ++ '\n' :: r' := by
    have joined : textOf (pre ++ .plain '[' :: piecesOf (as ++ .group inner :: gs.map .gap)) =
        textOf (pre ++ .plain '[' :: piecesOf as) ++ ((Part.group inner).text ++ textOf gs) := by
      simp [Part.text]
    rw [joined, hs]
    simp
  have blanks : ∀ c ∈ r', Text.isBlank c = true := fun c hc => hr c (by simp [hc])
  rw [← List.append_nil (as ++ _)] at h
  obtain ⟨front, hfront, -⟩ := h.exists_of_line line blanks
  obtain ⟨k, -, hk⟩ := exists_of_gaps_suffix hfront
  have noElements : elementsOf k = [] := by
    have all : elementsOf k ++ elementsOf (gapsOf ('\n' :: r')) = [] := by
      rw [← elementsOf_append, ← hk, elementsOf_gaps]
    exact (List.append_eq_nil_iff.mp all).1
  refine ⟨.group inner :: (k ++ [.gap (.plain '\n')]), gapsOf r', ?_, ?_, ?_, alternate_gaps _⟩
  · rw [hk]
    simp [gapsOf]
  · rw [piecesOf_gapsOf, textOf_append, textOf_plains]
    rfl
  · have newline : elementsOf [.gap (.plain '\n')] = [] := rfl
    have own : elementsOf (.group inner :: (k ++ [.gap (.plain '\n')])) =
        (Part.group inner).text :: elementsOf (k ++ [.gap (.plain '\n')]) := rfl
    rw [own, elementsOf_append, noElements, newline, List.append_nil]

/-- The lines of an entry. -/
theorem exists_cut (h : Listed t pre (as ++ .group inner :: bs) post close)
    (ha : Alternate false (as ++ .group inner :: bs)) (hreach : Reach inner close post bs m b)
    {w z : Text} (hb : b = w ++ '\n' :: z) (hw : ∀ c ∈ w, Text.isBlank c = true) :
    ∃ cut rest, .group inner :: bs = cut ++ rest ∧
      textOf (piecesOf rest ++ .plain close :: post) = z ∧
        elementsOf cut = [(Part.group inner).text] ∧ Alternate false rest := by
  cases hreach with
  | comma gs cs => exact h.exists_cut_of_comma ha hb hw
  | close hgs _ hr => exact h.exists_cut_of_close (by rw [List.append_assoc, ← hgs]) hr hb hw

/-- A gap takes the place of an entry and of the rest of its lines. -/
theorem commentOut (h : Listed t pre (as ++ .group inner :: bs) post close)
    (ha : Alternate false (as ++ .group inner :: bs)) (hm : '\n' ∉ marker)
    (hreach : Reach inner close post bs m b)
    (hout : commentOut? t (textOf (pre ++ .plain '[' :: piecesOf as)).length
      (textOf (pre ++ .plain '[' :: piecesOf as) ++ m).length marker = some t') :
    ∃ parts, Listed t' pre parts post close ∧
      Cleared (Part.group inner).text (as ++ .group inner :: bs) parts ∧
      elementsOf parts = elementsOf as ++ elementsOf bs := by
  have filled : ∃ c ∈ textOf (pre ++ .plain '[' :: piecesOf as), Text.isBlank c = false :=
    ⟨'[', by simp [Piece.text], by decide⟩
  rw [h.text_reach hreach] at hout
  obtain ⟨u, v, w, z, block, hu, hw, hv, hwb, hblock, rfl⟩ := exists_of_commentOut? hout hm filled
    ⟨close, hreach.mem, not_blank_of_closes h.framed.closes⟩
  obtain ⟨front, rfl, hfront⟩ := h.exists_of_line hu hv
  obtain ⟨cut, rest, hsplit, hz, helems, hrest⟩ := h.exists_cut ha hreach hw hwb
  obtain ⟨gs, rfl, hcuts, hgs⟩ := hblock
  have block : Insertable ((gs ++ [Piece.plain '\n']).map Part.gap) :=
    insertable_gaps (List.forall_mem_append.mpr ⟨hgs, by simp [IsGap]⟩) hcuts
  have whole : front ++ gapsOf ('\n' :: v) ++ .group inner :: bs =
      (front ++ [.gap (.plain '\n')]) ++ ((gapsOf v ++ cut) ++ rest) := by
    rw [hsplit]
    simp [gapsOf]
  have text : u ++ '\n' :: (textOf (gs ++ [.plain '\n']) ++ z) =
      textOf (pre ++ .plain '[' :: piecesOf (front ++ [.gap (.plain '\n')])) ++
        (textOf (piecesOf ((gs ++ [Piece.plain '\n']).map Part.gap)) ++
          textOf (piecesOf rest ++ .plain close :: post)) := by
    rw [piecesOf_map_gap, hz, ← hfront]
    simp [Part.pieces, Piece.text]
  obtain ⟨halt, hgroup⟩ := alternate_append.mp ha
  have closed : openAfter false front = false := by
    have := hgroup.1
    rwa [openAfter_append, gapsOf, openAfter_gaps] at this
  have elements : elementsOf bs = elementsOf rest := by
    have split := congrArg elementsOf hsplit
    rw [elementsOf_append, helems] at split
    exact (List.cons.inj split).2
  have newline : elementsOf [.gap (.plain '\n')] = [] := rfl
  -- The lines end where the declaration and the blanks behind it do.
  have line : textOf (piecesOf cut) = m ++ w ++ ['\n'] := by
    have own := hreach.text_eq
    rw [hsplit, piecesOf_append, List.append_assoc, textOf_append, hz, hw] at own
    have lines : m ++ (w ++ '\n' :: z) = m ++ w ++ ['\n'] ++ z := by simp
    exact List.append_cancel_right (own.trans lines)
  rw [whole] at h ⊢
  rw [text]
  refine ⟨_, h.replace (seals_newline front) block, ?_, ?_⟩
  · have cleared : Cleared (Part.group inner).text
        (front ++ .gap (.plain '\n') :: ((gapsOf v ++ cut) ++ rest))
        (front ++ .gap (.plain '\n') :: (gs.map .gap ++ .gap (.plain '\n') :: rest)) := by
      refine .lines closed ?_ ⟨v ++ m ++ w, ?_⟩ hrest
      · rw [elementsOf_append, gapsOf, elementsOf_gaps, helems, List.nil_append]
      · rw [piecesOf_append, textOf_append, line, piecesOf_gapsOf, textOf_plains]
        simp
    simpa using cleared
  · simp only [elementsOf_append, gapsOf, elementsOf_gaps, newline, elements, List.append_nil,
      List.nil_append]

end Listed

end Code

/-- Whether an entry, as it is written, is that of the field. -/
def Merge.isNamed (name entry : Text) : Bool :=
  (Code.entryName? entry).map Path.normal == some (Path.normal name)

theorem Merge.exists_of_removeField {t t' name marker : Text}
    (h : removeField t name marker = .ok t') : ∃ opening closing e stop,
      Code.fieldsList? t = some (opening, closing) ∧
      (Code.entries t opening closing).find?
      (fun e => isNamed name (Text.slice t e.start e.stop)) = some e ∧
      Code.declarationEnd? t e.start = some stop ∧
      Code.commentOut? t e.start (stop.after t) marker = some t' := by
  unfold removeField at h
  split at h
  · cases h
  · rename_i opening closing hlist
    dsimp only at h
    split at h
    · cases h
    · rename_i e hfind
      split at h
      · cases h
      · rename_i stop hstop
        split at h
        · cases h
        · rename_i hout
          cases h
          exact ⟨opening, closing, e, stop, hlist, hfind, hstop, hout⟩

namespace Code.Listed

variable {t t' name marker m b : Text} {pre post inner : List Piece} {as bs parts : List Part}
  {close : Char}

theorem text_parts (h : Listed t pre parts post close) : t = textOf (pre ++ [.plain '[']) ++
    (textOf (piecesOf parts) ++ textOf (.plain close :: post)) := by
  rw [(isCut_of_pieces h.framed.pieces_body).1, textOf_append (piecesOf parts)]

/-- A field without an entry is left alone. -/
theorem removeField_of_not_named (h : Listed t pre parts post close) (ha : Alternate false parts)
    (hn : ∀ x ∈ elementsOf parts, Merge.isNamed name x = false) (marker : Text) :
    Merge.removeField t name marker = .error .notListed := by
  have nothing := find?_entriesAt_eq_none (textOf (pre ++ [.plain '[']))
    (textOf (.plain close :: post)) hn
  rw [← h.text_parts, Framed.length_opening] at nothing
  rw [Merge.removeField, h.framed.fieldsList?_eq]
  simp only [h.entries_eq ha]
  have found : (entriesAt ((textOf pre).length + 1) parts).find? (fun e =>
      (entryName? (Text.slice t e.start e.stop)).map Path.normal == some (Path.normal name)) =
        none := nothing
  rw [found]

/-- The first entry of a field is commented out as far as its declaration reaches. -/
theorem removeField_eq (h : Listed t pre (as ++ .group inner :: bs) post close)
    (ha : Alternate false (as ++ .group inner :: bs)) (hreach : Reach inner close post bs m b)
    (hwanted : Merge.isNamed name (Part.group inner).text = true)
    (hbefore : ∀ x ∈ elementsOf as, Merge.isNamed name x = false) (marker : Text) :
    Merge.removeField t name marker =
      (commentOut? t (textOf (pre ++ .plain '[' :: piecesOf as)).length
        (textOf (pre ++ .plain '[' :: piecesOf as) ++ m).length marker).elim
          (.error .sharedLine) .ok := by
  obtain ⟨entry, hfind, hstart⟩ := exists_find?_entriesAt (textOf (pre ++ [.plain '['])) bs
    (textOf (.plain close :: post)) hwanted hbefore
  rw [← h.text_parts, Framed.length_opening] at hfind
  have place : entry.start = (textOf (pre ++ .plain '[' :: piecesOf as)).length := by
    rw [hstart]
    simp only [textOf_append, textOf_cons, List.length_append, textOf_nil, List.length_nil]
    omega
  obtain ⟨stop, hstop, hafter⟩ := h.declarationEnd?_eq hreach
  rw [← place] at hstop ⊢
  rw [Merge.removeField, h.framed.fieldsList?_eq]
  simp only [h.entries_eq ha]
  have found : (entriesAt ((textOf pre).length + 1) (as ++ .group inner :: bs)).find?
      (fun e => (entryName? (Text.slice t e.start e.stop)).map Path.normal ==
        some (Path.normal name)) = some entry := hfind
  rw [found]
  simp only [hstop, hafter]
  split
  · rename_i hout
    rw [hout]
    rfl
  · rename_i hout
    rw [hout]
    rfl

/-- A field is commented out with the lines of its first entry. -/
theorem exists_cleared (h : Listed t pre parts post close) (ha : Alternate false parts)
    (hm : '\n' ∉ marker) (hr : Merge.removeField t name marker = .ok t') :
    ∃ parts' entry, Merge.isNamed name entry = true ∧ Listed t' pre parts' post close ∧
      Cleared entry parts parts' ∧
      elementsOf parts' = (elementsOf parts).eraseP (Merge.isNamed name) := by
  rcases first_wanted_cases (Merge.isNamed name) parts with none |
    ⟨as, inner, bs, rfl, hwanted, hbefore⟩
  · rw [h.removeField_of_not_named ha none] at hr
    cases hr
  obtain ⟨m, b, hreach⟩ := exists_reach inner close post (alternate_append.mp ha).2.2
  rw [h.removeField_eq ha hreach hwanted hbefore] at hr
  obtain ⟨out, hout⟩ : ∃ out, commentOut? t (textOf (pre ++ .plain '[' :: piecesOf as)).length
      (textOf (pre ++ .plain '[' :: piecesOf as) ++ m).length marker = some out :=
    Option.ne_none_iff_exists'.mp fun hnone => by
      rw [hnone] at hr
      cases hr
  rw [hout] at hr
  obtain rfl := Except.ok.inj hr
  obtain ⟨parts', listed, cleared, helements⟩ := h.commentOut ha hm hreach hout
  refine ⟨parts', _, hwanted, listed, cleared, ?_⟩
  have group : elementsOf (.group inner :: bs) = (Part.group inner).text :: elementsOf bs := rfl
  rw [helements, elementsOf_append, group, List.eraseP_append_right _ fun x hx =>
    by simp [hbefore x hx], List.eraseP_cons_of_pos hwanted]

/-- A field that is commented out leaves the list, and nothing else changes. -/
theorem removeField (h : Listed t pre parts post close) (ha : Alternate false parts)
    (hm : '\n' ∉ marker) (hr : Merge.removeField t name marker = .ok t') :
    ∃ parts', Listed t' pre parts' post close ∧ Alternate false parts' ∧
      elementsOf parts' = (elementsOf parts).eraseP (Merge.isNamed name) := by
  obtain ⟨parts', _, -, listed, cleared, helements⟩ := h.exists_cleared ha hm hr
  exact ⟨parts', listed, cleared.alternate ha, helements⟩

end Code.Listed

end SchemaDrift
