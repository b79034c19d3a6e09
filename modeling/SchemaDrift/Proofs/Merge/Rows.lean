import SchemaDrift.Proofs.Merge.Places
import SchemaDrift.Proofs.Source.Named

namespace SchemaDrift.Merge

open Code

/-!
# Rows

A field that is removed from a layout turns its row into a comment, and a field that is inserted has
its row behind the others. Both give a layout again.
-/

variable {name marker : Text} {f : Field} {table : Table}

/-- The name of an entry, as it is written. -/
def Row.name? : Row → Option Text
  | gap _ => none
  | entry e => some e.name

/-- The names of the entries, as they are written. -/
def FieldBlock.names (b : FieldBlock) : List Text := b.rows.filterMap Row.name?

/-- The row of a declaration. -/
theorem exists_entryRow {d : Declaration} (h : d.Written) {indent : Text}
    (hi : ∀ c ∈ indent, Text.isIndent c = true) (name : Text) :
    ∃ e : EntryRow, e.name = name.flatMap Text.escape ∧
      Source.entry indent name d = e.indent ++ (Code.Part.group e.inner).text := by
  obtain ⟨inner, hentry, hcuts, hpaired, hquote, hmute⟩ :=
    Source.exists_group_entry h (fun c hc => isBlank_of_isIndent (hi c hc)) name
  have text : (Code.Part.group inner).text =
      "(" ++ Text.quote name ++ ", " ++ Source.builder indent d ++ ")" := by
    refine List.append_cancel_left (hentry.symm.trans ?_)
    simp [Source.entry]
  have named : entryName? (Code.Part.group inner).text = some (name.flatMap Text.escape) := by
    rw [text]
    exact entryName?_entry name d indent
  exact ⟨⟨_, indent, inner, hi, hcuts, hpaired, hquote, hmute, named⟩, rfl, hentry⟩

/-! ## Texts of rows -/

theorem beginsLine_rows (rows : List Row) :
    BeginsLine (textOf (piecesOf (rows.flatMap Row.parts))) := by
  induction rows with
  | nil => nofun
  | cons r rows ih =>
    have own : BeginsLine (textOf (piecesOf r.parts)) := by
      cases r with
      | gap g =>
        rw [Row.parts, piecesOf_map_gap]
        exact g.begins
      | entry e =>
        have shape : textOf (piecesOf (Row.entry e).parts) =
            e.indent ++ (Code.Part.group e.inner).text ++ "," ++ ['\n'] := by
          simp [Row.parts, Code.Part.text, Code.Part.pieces, Piece.text]
        rw [shape]
        exact beginsLine_newline _
    rw [List.flatMap_cons, piecesOf_append, textOf_append]
    exact own.append ih

/-- A line begins behind the rows of a list. -/
theorem exists_textOf_rows (pre : List Piece) (rows : List Row) :
    ∃ u, textOf (pre ++ .plain '[' :: piecesOf (gapsOf "\n" ++ rows.flatMap Row.parts)) =
      u ++ ['\n'] := by
  have split : textOf (pre ++ .plain '[' :: piecesOf (gapsOf "\n" ++ rows.flatMap Row.parts)) =
      (textOf pre ++ "[\n") ++ textOf (piecesOf (rows.flatMap Row.parts)) := by
    simp [Piece.text]
  have begins : BeginsLine (textOf pre ++ "[\n") := by
    have own := beginsLine_newline (textOf pre ++ ['['])
    simpa using own
  rw [split]
  refine (begins.append (beginsLine_rows rows)).cases.resolve_left fun h => ?_
  simp at h

/-- The elements of a list of rows have the names of the rows. -/
theorem filterMap_entryName?_rows (rows : List Row) :
    (elementsOf (rows.flatMap Row.parts)).filterMap entryName? = rows.filterMap Row.name? := by
  induction rows with
  | nil => rfl
  | cons r rows ih =>
    rw [List.flatMap_cons, elementsOf_append, List.filterMap_append, ih]
    cases r with
    | gap g =>
      rw [Row.parts, elementsOf_gaps]
      rfl
    | entry e =>
      have own : elementsOf (Row.entry e).parts = [(Code.Part.group e.inner).text] := by
        rw [Row.parts, List.append_assoc, elementsOf_append, elementsOf_append, gapsOf, gapsOf,
          elementsOf_gaps, elementsOf_gaps]
        rfl
      have named : [(Code.Part.group e.inner).text].filterMap entryName? = [e.name] :=
        List.filterMap_cons_some e.named
      rw [own, named]
      rfl

theorem FieldBlock.filterMap_entryName?_parts (b : FieldBlock) :
    (elementsOf b.parts).filterMap entryName? = b.names := by
  cases b with
  | inline => rfl
  | lines rows tail h =>
    rw [parts, elementsOf_append, elementsOf_append, gapsOf, gapsOf, elementsOf_gaps,
      elementsOf_gaps, List.nil_append, List.append_nil]
    exact filterMap_entryName?_rows rows

/-! ## Rows that become comments -/

def Layout.withBlock (l : Layout) (b : FieldBlock) : Layout := { l with block := b }

theorem Layout.text_eq (l : Layout) :
    l.text = textOf l.pre ++ '[' :: (textOf (piecesOf l.block.parts) ++ ']' :: textOf l.post) := by
  simp [Layout.text, Layout.pieces, Layout.upTo, Layout.post, Piece.text]

theorem Layout.text_withBlock (l : Layout) (b : FieldBlock) : (l.withBlock b).text =
    textOf l.pre ++ '[' :: (textOf (piecesOf b.parts) ++ ']' :: textOf l.post) := Layout.text_eq _

/-- The entry of a field that is removed becomes a gap. -/
theorem Layout.removeField {l : Layout} {as bs : List Row} {e : EntryRow} {tail : Text}
    {h : ∀ c ∈ tail, Text.isIndent c = true}
    (hblock : l.block = .lines (as ++ .entry e :: bs) tail h)
    (he : Path.normal e.name = Path.normal name)
    (hbefore : ∀ n ∈ as.filterMap Row.name?, Path.normal n ≠ Path.normal name)
    (hm : '\n' ∉ marker) : ∃ g : GapLines, Merge.removeField l.text name marker =
      .ok (l.withBlock (.lines (as ++ .gap g :: bs) tail h)).text := by
  have listed := l.isListed
  have alternate := l.block.alternate
  generalize hfront : gapsOf "\n" ++ as.flatMap Row.parts ++ gapsOf e.indent = front
  generalize hback : gapsOf "\n" ++ (bs.flatMap Row.parts ++ gapsOf tail) = back
  have parts : l.block.parts = front ++ .group e.inner :: .comma :: back := by
    rw [hblock, ← hfront, ← hback]
    simp [FieldBlock.parts, Row.parts]
  rw [parts] at listed alternate
  -- The entry is the first one of this name.
  have wanted : isNamed name (Code.Part.group e.inner).text = true := by
    rw [isNamed, e.named]
    simp [he]
  have before : ∀ x ∈ elementsOf front, isNamed name x = false := by
    intro x hx
    rw [← hfront] at hx
    simp only [elementsOf_append, gapsOf, elementsOf_gaps, List.nil_append, List.append_nil] at hx
    by_contra hnamed
    obtain ⟨n, hname, hn⟩ := Option.map_eq_some_iff.mp (eq_of_beq (Bool.not_eq_false _ ▸ hnamed))
    refine hbefore n ?_ hn
    rw [← filterMap_entryName?_rows]
    exact List.mem_filterMap.mpr ⟨x, hx, hname⟩
  -- It stands on lines of its own.
  obtain ⟨u, hu⟩ := exists_textOf_rows l.pre as
  have above : textOf (l.pre ++ .plain '[' :: piecesOf front) = u ++ '\n' :: e.indent := by
    have split : l.pre ++ .plain '[' :: piecesOf front =
        (l.pre ++ .plain '[' :: piecesOf (gapsOf "\n" ++ as.flatMap Row.parts)) ++
          plains e.indent := by
      rw [← hfront]
      simp
    rw [split, textOf_append, hu, textOf_plains]
    simp
  generalize hz : textOf (piecesOf (bs.flatMap Row.parts ++ gapsOf tail) ++
    .plain ']' :: l.post) = z
  have text : l.text = u ++ '\n' :: e.indent ++ ((Code.Part.group e.inner).text ++ [','] ++
      ([] ++ '\n' :: z)) := by
    rw [listed.text_eq, above, ← hback, ← hz]
    simp [Code.Part.text, Code.Part.pieces, Piece.text]
  have line : '\n' ∉ e.indent := fun hc => absurd (e.isIndent _ hc) (by decide)
  have blanks : ∀ c ∈ e.indent, Text.isBlank c = true := fun c hc =>
    isBlank_of_isIndent (e.isIndent c hc)
  obtain ⟨indent, hindent, hout⟩ := commentOut?_append (u := u) (w := []) (z := z)
    (m := (Code.Part.group e.inner).text ++ [',']) line (by simp) blanks (by simp) hm
  obtain ⟨g, hg⟩ := exists_gap (isGapText_commented hindent hm
    (e.indent ++ ((Code.Part.group e.inner).text ++ [','] ++ [])))
  rw [← text, ← above, commented, ← hg] at hout
  refine ⟨g, ?_⟩
  rw [listed.removeField_eq alternate (.comma [] back) wanted before, textOf_nil, List.nil_append,
    hout, Option.elim]
  have split : (l.withBlock (.lines (as ++ .gap g :: bs) tail h)).text =
      textOf (l.pre ++ .plain '[' :: piecesOf (gapsOf "\n" ++ as.flatMap Row.parts)) ++
        (textOf g.pieces ++ z) := by
    rw [Layout.text_withBlock, ← hz]
    simp [FieldBlock.parts, Row.parts, Piece.text]
  rw [split, hu]
  simp

/-! ## Rows that are inserted -/

theorem openAfter_rows (rows : List Row) : openAfter false (rows.flatMap Row.parts) = false := by
  induction rows with
  | nil => rfl
  | cons r rows ih =>
    have own : openAfter false r.parts = false := by
      cases r with
      | gap g => exact openAfter_gaps _
      | entry e =>
        rw [Row.parts, List.append_assoc, gapsOf, openAfter_append, openAfter_gaps]
        rfl
    rw [List.flatMap_cons, openAfter_append, own, ih]

theorem FieldBlock.openAfter_parts (b : FieldBlock) : openAfter false b.parts = false := by
  cases b with
  | inline => rfl
  | lines rows tail h =>
    rw [parts, openAfter_append, openAfter_append, gapsOf, openAfter_gaps, openAfter_rows, gapsOf,
      openAfter_gaps]

/-- No element of a layout lacks the comma behind it. -/
theorem FieldBlock.closed (b : FieldBlock) (place : Nat) :
    lastIsOpen (entriesAt place b.parts) = false ∧
      ∀ s, closeLast (entriesAt place b.parts) s = s := by
  rcases last_cases_of_alternate b.alternate place with ⟨-, hopen, hsame⟩ |
    ⟨as, inner, gs, hlast, -⟩
  · exact ⟨hopen, hsame⟩
  · have after := b.openAfter_parts
    rw [hlast, openAfter_append, openAfter, openAfter_gaps] at after
    cases after

/-- Rows that are put in front of the bracket, or of its line, are the last rows. -/
theorem Layout.insertAtEnd (l : Layout) (rows : List Row) {closing : Nat}
    (hclosing : (textOf l.pre).length + 1 + (textOf (piecesOf l.block.parts)).length = closing) :
    ∃ (tail : Text) (h : ∀ c ∈ tail, Text.isIndent c = true),
      (if startsLine l.text closing then Text.insertAt l.text (lineStart l.text closing)
        (textOf (piecesOf (rows.flatMap Row.parts)))
      else Text.insertAt l.text closing ("\n" ++
        textOf (piecesOf (rows.flatMap Row.parts)) ++ indentation l.text closing)) =
          (l.withBlock (.lines (l.block.rows ++ rows) tail h)).text := by
  have text := l.text_eq
  cases hblock : l.block with
  | inline =>
    rw [hblock] at hclosing text
    have place : closing = (textOf l.pre ++ '[' :: []).length := by
      rw [← hclosing, List.length_append]
      rfl
    have split : l.text = textOf l.pre ++ '[' :: [] ++ (']' :: textOf l.post) := by
      rw [text]
      simp [FieldBlock.parts]
    have starts : startsLine l.text closing = false := by
      rw [split, place]
      exact startsLine_eq_false (by decide) (by simp) _
    obtain ⟨tail, htail⟩ : ∃ tail, indentation l.text closing = tail := ⟨_, rfl⟩
    have indents : ∀ c ∈ tail, Text.isIndent c = true := fun c hc => by
      rw [← htail] at hc
      exact List.mem_takeWhile_imp (p := Text.isIndent) hc
    refine ⟨tail, indents, ?_⟩
    rw [starts, htail, Layout.text_withBlock, split, place, if_neg Bool.false_ne_true,
      Text.insertAt_append]
    simp [FieldBlock.parts, FieldBlock.rows, Piece.text]
  | lines above tail h =>
    rw [hblock] at hclosing text
    obtain ⟨u, hu⟩ := exists_textOf_rows l.pre above
    have front : textOf (l.pre ++ .plain '[' :: piecesOf (FieldBlock.lines above tail h).parts) =
        u ++ '\n' :: tail := by
      have pieces : l.pre ++ .plain '[' :: piecesOf (FieldBlock.lines above tail h).parts =
          (l.pre ++ .plain '[' :: piecesOf (gapsOf "\n" ++ above.flatMap Row.parts)) ++
            plains tail := by
        simp [FieldBlock.parts]
      rw [pieces, textOf_append, hu, textOf_plains]
      simp
    have split : l.text = u ++ '\n' :: tail ++ (']' :: textOf l.post) := by
      rw [text, ← front]
      simp [Piece.text]
    have place : closing = (u ++ '\n' :: tail).length := by
      rw [← hclosing, ← front]
      simp only [textOf_append, textOf_cons, List.length_append]
      exact Nat.add_assoc _ _ _
    have line : '\n' ∉ tail := fun hc => absurd (h _ hc) (by decide)
    have starts : startsLine l.text closing = true := by
      rw [split, place, startsLine_append line]
      exact List.all_eq_true.mpr fun c hc => isBlank_of_isIndent (h c hc)
    have start : lineStart l.text closing = (u ++ ['\n']).length := by
      rw [split, place, lineStart_append line]
      simp
    have halves : l.text = (u ++ ['\n']) ++ (tail ++ (']' :: textOf l.post)) := by
      rw [split]
      simp
    refine ⟨tail, h, ?_⟩
    rw [if_pos starts, start, halves, Text.insertAt_append, ← hu, Layout.text_withBlock]
    simp [FieldBlock.parts, FieldBlock.rows, Piece.text]

/-- A field that is inserted has the last row, below a comment. -/
theorem Layout.insertField (l : Layout) (hf : f ∈ table.fields) (hm : '\n' ∉ marker) :
    ∃ (g : GapLines) (e : EntryRow) (tail : Text) (h : ∀ c ∈ tail, Text.isIndent c = true),
      e.name = f.name.flatMap Text.escape ∧ Merge.insertField l.text table f marker =
        .ok (l.withBlock (.lines (l.block.rows ++ [.gap g, .entry e]) tail h)).text := by
  have listed := l.isListed
  obtain ⟨hclosed, hsame⟩ := l.block.closed ((textOf l.pre).length + 1)
  generalize hclosing : (textOf l.pre).length + 1 +
    (textOf (piecesOf l.block.parts)).length = closing
  have hlist := listed.framed.fieldsList?_eq
  have hentries := listed.entries_eq l.block.alternate
  rw [hclosing] at hlist hentries
  generalize hindent : entryIndent l.text (textOf l.pre).length closing
    (entriesAt ((textOf l.pre).length + 1) l.block.parts) = indent
  have isIndent : ∀ c ∈ indent, Text.isIndent c = true := fun c hc =>
    isIndent_of_mem_entryIndent c (hindent ▸ hc)
  obtain ⟨e, hname, hentry⟩ :=
    exists_entryRow (Declaration.written_ofField f hf) isIndent f.name
  obtain ⟨g, hg⟩ := exists_gap (isGapText_markerLine
    (fun c hc => isBlank_of_isIndent (isIndent c hc)) hm)
  have block : markerLine indent marker ++ Source.entry indent f.name
      (Declaration.ofField table f) ++
      ("," : Text) ++ "\n" = textOf (piecesOf ([.gap g, .entry e].flatMap Row.parts)) := by
    rw [hentry, ← hg]
    simp [Row.parts, Code.Part.text, Code.Part.pieces, Piece.text]
  have inserted : Merge.insertField l.text table f marker = .ok (if startsLine l.text closing then
      Text.insertAt l.text (lineStart l.text closing)
        (textOf (piecesOf ([.gap g, .entry e].flatMap Row.parts)))
      else Text.insertAt l.text closing ("\n" ++
        textOf (piecesOf ([.gap g, .entry e].flatMap Row.parts)) ++
        indentation l.text closing)) := by
    rw [Merge.insertField, hlist]
    simp only [hentries, hindent, hclosed, hsame, Bool.false_eq_true, if_false, block]
  obtain ⟨tail, indents, placed⟩ := l.insertAtEnd [.gap g, .entry e] hclosing
  exact ⟨g, e, tail, indents, hname, inserted.trans (congrArg Except.ok placed)⟩

end SchemaDrift.Merge
