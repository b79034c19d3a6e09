import SchemaDrift.Proofs.Merge.Cutting
import SchemaDrift.Proofs.Source.Pieces

namespace SchemaDrift

/-!
# Fields that are inserted

The entry of a field is put behind the other entries of the list, which stay as they are. The entry
before it gets the comma that it may lack.
-/

namespace Code

variable {before : Option Char} {t marker indent : Text} {pre post inner : List Piece}
  {parts as bs : List Part} {close : Char}

/-! ## The last element -/

/-- A list has no groups, or a last one. -/
theorem exists_last_group (parts : List Part) : elementsOf parts = [] ∨
    ∃ as inner bs, parts = as ++ .group inner :: bs ∧ elementsOf bs = [] := by
  induction parts with
  | nil => exact .inl rfl
  | cons p parts ih =>
    rcases ih with none | ⟨as, inner, bs, rfl, none⟩
    · cases p with
      | gap g => exact .inl none
      | comma => exact .inl none
      | group inner => exact .inr ⟨[], inner, parts, rfl, none⟩
    · exact .inr ⟨p :: as, inner, bs, rfl, none⟩

theorem entriesAt_eq_nil (h : elementsOf parts = []) (place : Nat) :
    entriesAt place parts = [] := by
  induction parts generalizing place with
  | nil => rfl
  | cons p parts ih =>
    cases p with
    | gap g => exact ih h _
    | comma => exact ih h _
    | group inner => cases h

theorem getLast?_entriesAt (as : List Part) (inner : List Piece) (h : elementsOf bs = [])
    (place : Nat) :
    (entriesAt place (as ++ .group inner :: bs)).getLast? =
      some ⟨place + (textOf (piecesOf as)).length,
        place + (textOf (piecesOf as)).length + (Part.group inner).text.length,
        commaAfter (place + (textOf (piecesOf as)).length +
          (Part.group inner).text.length) bs⟩ := by
  induction as generalizing place with
  | nil =>
    have one : entriesAt place (.group inner :: bs) =
        [⟨place, place + (Part.group inner).text.length,
        commaAfter (place + (Part.group inner).text.length) bs⟩] := by
      rw [entriesAt]
      simp [entriesAt_eq_nil h]
    exact (congrArg List.getLast? one).trans (by simp)
  | cons p as ih =>
    have rest := ih (place + p.text.length)
    have shift : place + p.text.length + (textOf (piecesOf as)).length =
        place + (textOf (piecesOf (p :: as))).length := by
      simp [Part.text]
      omega
    rw [shift] at rest
    cases p with
    | gap g => exact rest
    | comma => exact rest
    | group other =>
      rw [List.cons_append, entriesAt]
      simp only [List.getLast?_cons, rest, Option.getD_some]

theorem openAfter_of_elementsOf_eq_nil (h : elementsOf parts = []) :
    openAfter false parts = false := by
  induction parts with
  | nil => rfl
  | cons p parts ih =>
    cases p with
    | gap g => exact ih h
    | comma => exact ih h
    | group inner => cases h

theorem commaAfter_gaps (gs : List Piece) (place : Nat) :
    commaAfter place (gs.map .gap) = none := by
  induction gs generalizing place with
  | nil => rfl
  | cons g gs ih => exact ih _

theorem exists_commaAfter (gs : List Piece) (place : Nat) (cs : List Part) :
    ∃ comma, commaAfter place (gs.map .gap ++ .comma :: cs) = some comma := by
  induction gs generalizing place with
  | nil => exact ⟨place, rfl⟩
  | cons g gs ih => exact ih _

/-- The last element is open just if only gaps stand behind it. -/
theorem last_cases_of_alternate (ha : Alternate false parts) (place : Nat) :
    (openAfter false parts = false ∧ Merge.lastIsOpen (entriesAt place parts) = false ∧
      ∀ s, Merge.closeLast (entriesAt place parts) s = s) ∨
    ∃ (as : List Part) (inner gs : List Piece), parts = as ++ .group inner :: gs.map .gap ∧
      Merge.lastIsOpen (entriesAt place parts) = true ∧
        ∀ s, Merge.closeLast (entriesAt place parts) s = Text.insertAt s
          (place + (textOf (piecesOf (as ++ [.group inner]))).length) "," := by
  rcases exists_last_group parts with none | ⟨as, inner, bs, rfl, none⟩
  · left
    rw [entriesAt_eq_nil none]
    exact ⟨openAfter_of_elementsOf_eq_nil none, rfl, fun _ => rfl⟩
  · have last := getLast?_entriesAt as inner none place
    have length : place + (textOf (piecesOf (as ++ [.group inner]))).length =
        place + (textOf (piecesOf as)).length + (Part.group inner).text.length := by
      simp [Part.text]
      omega
    obtain ⟨-, -, hbs⟩ := alternate_append.mp ha
    obtain ⟨gs, rfl | ⟨cs, rfl⟩⟩ := exists_gaps hbs
    · right
      rw [commaAfter_gaps] at last
      refine ⟨as, inner, gs, rfl, ?_, fun s => ?_⟩
      · rw [Merge.lastIsOpen, last]
        rfl
      · rw [Merge.closeLast, last, length]
    · left
      obtain ⟨comma, hcomma⟩ := exists_commaAfter gs
        (place + (textOf (piecesOf as)).length + (Part.group inner).text.length) cs
      rw [hcomma] at last
      refine ⟨?_, ?_, fun s => ?_⟩
      · have noGroup : elementsOf cs = [] := by
          rw [elementsOf_append, elementsOf_gaps] at none
          exact none
        rw [openAfter_append, openAfter, openAfter_append, openAfter_gaps, openAfter]
        exact openAfter_of_elementsOf_eq_nil noGroup
      · rw [Merge.lastIsOpen, last]
        rfl
      · rw [Merge.closeLast, last]

/-! ## Parts that are inserted -/

namespace Listed

variable {ins : List Part} {stop : Nat}

/-- A comment in front of the bracket ends on the line of the bracket. -/
theorem seals_last (h : Listed t pre parts post close) :
    ∀ p ∈ (piecesOf parts).getLast?, p.Seals := by
  intro p hp
  rcases List.eq_nil_or_concat parts with rfl | ⟨init, q, rfl⟩
  · cases hp
  rw [List.concat_eq_append] at h hp
  rw [piecesOf_append] at hp
  have last (ps : List Piece) {r : Piece} (hq : piecesOf [q] = ps ++ [r]) : r = p := by
    rw [hq, ← List.append_assoc, List.getLast?_concat] at hp
    exact Option.some.inj hp
  have sound := h.sound q (by simp)
  cases q with
  | comma => exact last [] rfl ▸ (by decide : (Piece.plain ',').Seals)
  | group inner =>
    have shape : piecesOf [.group inner] = (.plain '(' :: inner) ++ [.plain ')'] := by
      simp [Part.pieces]
    exact last _ shape ▸ (by decide : (Piece.plain ')').Seals)
  | gap g =>
    obtain rfl := last [] rfl
    cases g with
    | plain c => exact seals_of_isBlank sound
    | literal q s => exact absurd sound id
    | comment s =>
      have split : pieces 0 none t = (pre ++ .plain '[' :: piecesOf init ++ [.comment s]) ++
          .plain close :: post := by
        rw [h.framed.pieces_eq]
        simp [Part.pieces]
      obtain ⟨-, ⟨c, a, hs, hfirst⟩, -⟩ := isCut_append_iff.mp (isCut_of_pieces split).2.1
      rw [textOf_nil, List.nil_append] at hfirst
      obtain ⟨-, ⟨b, -, hline⟩ | ⟨b, hb, -⟩⟩ := comment?_cases (comment?_of_first hfirst) hs
        (by simp [Piece.text])
      · -- A comment up to the end of the line would go on with the bracket.
        have all : ∀ d ∈ c :: a, (d != '\n') = true := fun d hd => by
          rw [← hline] at hd
          exact List.mem_takeWhile_imp (p := (· != '\n')) hd
        have goesOn : (close != '\n') = true := by
          have notBlank := not_blank_of_closes h.framed.closes
          rw [bne_iff_ne]
          rintro rfl
          cases notBlank
        rw [List.takeWhile_append_of_pos all, textOf_cons, Piece.text, List.singleton_append,
          List.takeWhile_cons_of_pos (p := (· != '\n')) goesOn] at hline
        have length := congrArg List.length hline
        simp at length
      · change ("/*" : Text) <+: s
        have hs : s = c :: a := hs
        rw [hs, hb]
        exact ⟨b, rfl⟩

theorem text_closing (h : Listed t pre parts post close) :
    t = textOf (pre ++ .plain '[' :: piecesOf parts) ++ textOf (.plain close :: post) := by
  have ended : Listed t pre (parts ++ []) post close := by rwa [List.append_nil]
  exact ended.text_eq

theorem length_closing (pre : List Piece) (parts : List Part) :
    (textOf pre).length + 1 + (textOf (piecesOf parts)).length =
      (textOf (pre ++ .plain '[' :: piecesOf parts)).length := by
  simp [Piece.text]
  omega

/-- Parts can be put in front of the line of the bracket that closes the list. -/
theorem insertLine (h : Listed t pre parts post close) (hins : Insertable ins)
    (hstarts : startsLine t (textOf (pre ++ .plain '[' :: piecesOf parts)).length = true) :
    ∃ front v, parts = front ++ gapsOf v ∧ Listed
      (Text.insertAt t (lineStart t (textOf (pre ++ .plain '[' :: piecesOf parts)).length)
        (textOf (piecesOf ins))) pre (front ++ (ins ++ gapsOf v)) post close := by
  have text := h.text_closing
  have own := hstarts
  rw [text] at own
  obtain ⟨u, v, hu, hnv, hv⟩ := (exists_of_startsLine own).resolve_left fun all =>
    absurd (all '[' (by simp [Piece.text])) (by decide)
  obtain ⟨front, rfl, hfront⟩ := Listed.exists_of_line (by rwa [List.append_nil]) hu hv
  have regroup : front ++ gapsOf ('\n' :: v) =
      (front ++ [.gap (.plain '\n')]) ++ ([] ++ gapsOf v) := by simp [gapsOf]
  have start : lineStart t (textOf (pre ++ .plain '[' ::
      piecesOf (front ++ gapsOf ('\n' :: v)))).length = (u ++ ['\n']).length := by
    rw [text, hu, lineStart_append hnv]
    simp
  have first : textOf (pre ++ .plain '[' :: piecesOf (front ++ [.gap (.plain '\n')])) =
      u ++ ['\n'] := by
    rw [← hfront]
    simp [Part.pieces, Piece.text]
  have split : t = (u ++ ['\n']) ++ textOf (piecesOf (gapsOf v) ++ .plain close :: post) := by
    rw [text, hu]
    simp
  have inserted : Text.insertAt t (lineStart t (textOf (pre ++ .plain '[' ::
      piecesOf (front ++ gapsOf ('\n' :: v)))).length) (textOf (piecesOf ins)) =
        (u ++ ['\n']) ++ (textOf (piecesOf ins) ++
          textOf (piecesOf (gapsOf v) ++ .plain close :: post)) := by
    rw [start, split, Text.insertAt_append]
  refine ⟨front ++ [.gap (.plain '\n')], v, by simp [gapsOf], ?_⟩
  rw [inserted, ← first]
  rw [regroup] at h
  exact h.replace (seals_newline front) hins

/-- Parts can be put in front of the bracket that closes the list. -/
theorem insertBehind (h : Listed t pre parts post close) (hins : Insertable ins) :
    Listed (Text.insertAt t (textOf (pre ++ .plain '[' :: piecesOf parts)).length
      (textOf (piecesOf ins))) pre (parts ++ ins) post close := by
  have ended : Listed t pre (parts ++ ([] ++ [])) post close := by
    rwa [List.append_nil, List.append_nil]
  have placed := ended.replace h.seals_last hins
  rw [List.append_nil, piecesOf_nil, List.nil_append, ← Text.insertAt_append,
    ← h.text_closing] at placed
  exact placed

/-- Parts can be put in front of the bracket that closes the list: in front of its line, or on a
line of their own. -/
theorem insertAtEnd (h : Listed t pre parts post close) (hins : Insertable ins)
    (hstop : stop = (textOf pre).length + 1 + (textOf (piecesOf parts)).length) :
    ∃ front a b back, parts = front ++ gapsOf back ∧
      Listed (if startsLine t stop then Text.insertAt t (lineStart t stop) (textOf (piecesOf ins))
        else Text.insertAt t stop ("\n" ++ textOf (piecesOf ins) ++ indentation t stop))
          pre (front ++ ((gapsOf a ++ (ins ++ gapsOf b)) ++ gapsOf back)) post close := by
  rw [length_closing] at hstop
  subst hstop
  split
  · rename_i hstarts
    obtain ⟨front, v, hparts, listed⟩ := h.insertLine hins hstarts
    refine ⟨front, [], [], v, hparts, ?_⟩
    simpa [gapsOf] using listed
  · generalize hindent : indentation t _ = indent
    have blanks : ∀ c ∈ indent, Text.isBlank c = true := fun c hc =>
      isBlank_of_mem_indentation (hindent ▸ hc)
    have block : Insertable (gapsOf ['\n'] ++ (ins ++ gapsOf indent)) :=
      (insertable_gapsOf (by decide)).append (hins.append (insertable_gapsOf blanks))
    have text : textOf (piecesOf (gapsOf ['\n'] ++ (ins ++ gapsOf indent))) =
        "\n" ++ textOf (piecesOf ins) ++ indent := by
      simp [Piece.text]
    have listed := h.insertBehind block
    rw [text] at listed
    refine ⟨parts, ['\n'], indent, [], by simp [gapsOf], ?_⟩
    simpa [gapsOf] using listed

end Listed

/-- A comma can be put behind a group. -/
theorem Listed.insertComma (h : Listed t pre (as ++ .group inner :: bs) post close) :
    Listed (Text.insertAt t ((textOf pre).length + 1 +
      (textOf (piecesOf (as ++ [.group inner]))).length) ",") pre
        (as ++ .group inner :: .comma :: bs) post close := by
  have regroup : as ++ .group inner :: bs = (as ++ [.group inner]) ++ ([] ++ bs) := by simp
  rw [regroup] at h
  have placed := h.replace (seals_group as inner) insertable_comma
  have text := h.text_eq
  rw [List.nil_append] at text
  rw [← Text.insertAt_append, ← text] at placed
  have regrouped : as ++ [.group inner] ++ ([.comma] ++ bs) =
      as ++ .group inner :: .comma :: bs := by
    simp
  rw [regrouped] at placed
  rw [length_closing]
  exact placed

theorem isIndent_of_mem_entryIndent {opening closing : Nat} {entries : List Entry} :
    ∀ c ∈ Merge.entryIndent t opening closing entries, Text.isIndent c = true := by
  have line {c : Char} {place : Nat} (hc : c ∈ indentation t place) : Text.isIndent c = true :=
    List.mem_takeWhile_imp (p := Text.isIndent) hc
  have step : ∀ c ∈ ("    " : Text), Text.isIndent c = true := by decide
  intro c hc
  unfold Merge.entryIndent at hc
  split at hc
  · exact line hc
  · rcases List.mem_append.mp hc with hc | hc
    · exact line hc
    · exact step c hc

/-- The parts of an entry with a marker above it, and a comma behind it unless it stays open. -/
def entryParts (gs : List Piece) (indent : Text) (inner : List Piece) (isOpen : Bool) : List Part :=
  gs.map .gap ++ (gapsOf indent ++
    (.group inner :: ((if isOpen then [] else [.comma]) ++ gapsOf ['\n'])))

section EntryParts

variable {gs : List Piece} {isOpen : Bool}

theorem textOf_entryParts : textOf (piecesOf (entryParts gs indent inner isOpen)) =
    textOf gs ++ (indent ++ (Part.group inner).text) ++
      (if isOpen then [] else ("," : Text)) ++ "\n" := by
  cases isOpen <;> simp [entryParts, Part.text, Part.pieces, Piece.text]

theorem insertable_entryParts (hgs : Insertable (gs.map .gap))
    (hi : ∀ c ∈ indent, Text.isBlank c = true) (hinner : Insertable [.group inner]) :
    Insertable (entryParts gs indent inner isOpen) := by
  have newline : Insertable (gapsOf ['\n']) := insertable_gapsOf (by decide)
  have behind : Insertable ((if isOpen then [] else [.comma]) ++ gapsOf ['\n']) := by
    cases isOpen
    · exact insertable_comma.append newline
    · exact newline
  exact hgs.append ((insertable_gapsOf hi).append (hinner.append behind))

theorem elementsOf_entryParts :
    elementsOf (entryParts gs indent inner isOpen) = [(Part.group inner).text] := by
  have own : elementsOf (.group inner :: ((if isOpen then [] else [.comma]) ++ gapsOf ['\n'])) =
      [(Part.group inner).text] := by
    cases isOpen <;> rfl
  rw [entryParts, elementsOf_append, elementsOf_gaps, elementsOf_append, gapsOf,
    elementsOf_gaps, own]
  rfl

theorem alternate_entryParts : Alternate false (entryParts gs indent inner isOpen) := by
  rw [entryParts, alternate_append, openAfter_gaps, alternate_append, gapsOf, openAfter_gaps]
  refine ⟨alternate_gaps gs, alternate_gaps _, rfl, ?_⟩
  cases isOpen <;> trivial

end EntryParts

/-- A field that is inserted is the last element of the list, and nothing else changes. -/
theorem Listed.insertField {table : Table} {f : Field} {t' : Text}
    (h : Listed t pre parts post close) (ha : Alternate false parts) (hm : '\n' ∉ marker)
    (hf : f ∈ table.fields) (hi : Merge.insertField t table f marker = .ok t') :
    ∃ parts' indent x, Listed t' pre parts' post close ∧ Alternate false parts' ∧
      elementsOf parts' = elementsOf parts ++ [x] ∧ (∀ c ∈ indent, Text.isBlank c = true) ∧
        Source.entry indent f.name (Declaration.ofField table f) = indent ++ x := by
  rw [Merge.insertField, h.framed.fieldsList?_eq] at hi
  simp only [h.entries_eq ha] at hi
  generalize hindent : Merge.entryIndent t (textOf pre).length
    ((textOf pre).length + 1 + (textOf (piecesOf parts)).length)
      (entriesAt ((textOf pre).length + 1) parts) = indent at hi
  have blank : ∀ c ∈ indent, Text.isBlank c = true := fun c hc =>
    isBlank_of_isIndent (isIndent_of_mem_entryIndent c (hindent ▸ hc))
  obtain ⟨inner, hentry, hcuts, hclosed, hquote, -⟩ := Source.exists_group_entry
    (Declaration.written_ofField f hf) blank f.name
  rw [hentry] at hi
  obtain ⟨gs, hmarker, hgaps, hgs⟩ := isGapText_markerLine blank hm
  have gap : ∀ g ∈ gs ++ [.plain '\n'], IsGap g :=
    List.forall_mem_append.mpr ⟨hgs, by simp [IsGap]⟩
  generalize hopen : Merge.lastIsOpen (entriesAt ((textOf pre).length + 1) parts) = isOpen at hi
  have block : markerLine indent marker ++ (indent ++ (Part.group inner).text) ++
      (if isOpen then [] else ("," : Text)) ++ "\n" =
        textOf (piecesOf (entryParts (gs ++ [.plain '\n']) indent inner isOpen)) := by
    rw [textOf_entryParts, hmarker]
  rw [block] at hi
  obtain rfl := Except.ok.inj hi
  have entry : Insertable (entryParts (gs ++ [.plain '\n']) indent inner isOpen) :=
    insertable_entryParts (insertable_gaps gap hgaps) blank (insertable_group hclosed hcuts hquote)
  obtain ⟨front, a, b, back, hparts, inserted⟩ := h.insertAtEnd entry rfl
  have elements : elementsOf parts = elementsOf front := by
    rw [hparts, elementsOf_append, gapsOf, elementsOf_gaps, List.append_nil]
  generalize hnew :
    (gapsOf a ++ (entryParts (gs ++ [.plain '\n']) indent inner isOpen ++ gapsOf b)) ++
    gapsOf back = new at inserted
  have added : elementsOf new = [(Part.group inner).text] := by
    rw [← hnew]
    simp only [elementsOf_append, gapsOf, elementsOf_gaps, elementsOf_entryParts, List.append_nil,
      List.nil_append]
  have alternate : Alternate false new := by
    rw [← hnew, alternate_append, alternate_append, alternate_append, gapsOf, openAfter_gaps]
    exact ⟨⟨alternate_gaps _, alternate_entryParts, alternate_gaps _⟩, alternate_gaps _⟩
  rcases last_cases_of_alternate ha ((textOf pre).length + 1) with ⟨hafter, -, hsame⟩ |
    ⟨as, last, gs', hlast, -, hcomma⟩
  · refine ⟨front ++ new, indent, (Part.group inner).text, ?_, ?_, ?_, blank, hentry⟩
    · rw [hsame]
      exact inserted
    · have behind : openAfter false front = false := by
        rwa [hparts, openAfter_append, gapsOf, openAfter_gaps] at hafter
      rw [hparts, alternate_append] at ha
      exact alternate_append.mpr ⟨ha.1, by rwa [behind]⟩
    · rw [elementsOf_append, added, elements]
  · -- The entry before it gets a comma first.
    obtain ⟨k, rfl, hk⟩ := exists_of_gaps_suffix (hlast.symm.trans hparts)
    obtain ⟨gs₁, gs₂, -, rfl, -⟩ := List.map_eq_append_iff.mp hk
    have regroup : as ++ .group last :: gs₁.map .gap ++ new =
        as ++ .group last :: (gs₁.map .gap ++ new) := by simp
    rw [regroup] at inserted
    refine ⟨as ++ .group last :: .comma :: (gs₁.map .gap ++ new), indent, (Part.group inner).text,
      ?_, ?_, ?_, blank, hentry⟩
    · rw [hcomma]
      exact inserted.insertComma
    · rw [hlast, alternate_append] at ha
      refine alternate_append.mpr ⟨ha.1, ha.2.1, ?_⟩
      exact alternate_append.mpr ⟨alternate_gaps gs₁, by rwa [openAfter_gaps]⟩
    · have group (rest : List Part) : elementsOf (.group last :: rest) =
          (Part.group last).text :: elementsOf rest := rfl
      have comma (rest : List Part) : elementsOf (.comma :: rest) = elementsOf rest := rfl
      rw [hlast, elementsOf_append, elementsOf_append, group, group, comma, elementsOf_append,
        elementsOf_gaps, elementsOf_gaps, added]
      simp

end Code

end SchemaDrift
