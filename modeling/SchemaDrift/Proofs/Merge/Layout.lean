import SchemaDrift.Proofs.Merge.Definitions
import SchemaDrift.Proofs.Merge.Insertion

namespace SchemaDrift.Merge

open Code

/-!
# Layouts

A generated file, and what merges make of it, has a layout: the function of the model with the list
of fields, whose entries stand on lines of their own, the functions of the indexes, and the list of
definitions. In between stand blanks and comments. The elements of the list of definitions may be
written in any way, on any lines, and the code of the functions as well. The layout fixes how the
file is cut into pieces, and so what a search finds in it.
-/

variable {t name marker : Text} {ps : List Piece}

/-! ## Parts of a layout -/

/-- Lines of blanks and comments. -/
structure GapLines where
  pieces : List Piece
  isGap : ∀ p ∈ pieces, IsGap p
  cuts : Cuts pieces
  begins : BeginsLine (textOf pieces)

/-- The lines of an entry of the list of fields. -/
structure EntryRow where
  /-- The name, as it is written. -/
  name : Text
  indent : Text
  inner : List Piece
  isIndent : ∀ c ∈ indent, Text.isIndent c = true
  cuts : Cuts (Code.Part.group inner).pieces
  isPaired : IsPaired inner
  notQuote : .plain '\'' ∉ inner
  mute : Mute inner
  named : entryName? (Code.Part.group inner).text = some name

/-- The function of an index. -/
structure IndexFunction where
  name : Text
  inner : List Piece
  isIdent : IsIdent name
  ne_model : name ≠ "model"
  ne_aggregate : name ≠ Source.aggregate
  cuts : Cuts inner
  isPaired : IsPaired inner
  notQuote : .plain '\'' ∉ inner
  silent : ∀ other, Silent (functionPattern other) inner

/-- The lines of the list of fields. -/
inductive Row where
  | gap (g : GapLines)
  | entry (e : EntryRow)

/-- The list of fields: empty on one line, or rows with the indentation of the closing bracket. -/
inductive FieldBlock where
  | inline
  | lines (rows : List Row) (tail : Text) (h : ∀ c ∈ tail, Text.isIndent c = true)

/-- What can stand below the comment with which something was added. -/
inductive SegmentBody where
  | function (f : IndexFunction)
  | gap (g : GapLines)

/-- The function of an index or its remains, behind the comment with which it was added. -/
structure Segment where
  marker : Option Text
  isLine : ∀ m ∈ marker, '\n' ∉ m
  body : SegmentBody

/-- What stands in front of the call with the list of fields. -/
structure Opening where
  pieces : List Piece
  cuts : Cuts pieces
  fields : Silent fieldsPattern pieces
  functions : ∀ name, IsIdent name → name ≠ "model" → Silent (functionPattern name) pieces
  notQuote : .plain '\'' ∉ pieces

/-- Whether an element of the list of definitions starts and ends where another one can stand, and
declares no function. -/
structure Separate (es : List Piece) : Prop where
  silent : ∀ name, Silent (functionPattern name) es
  notQuote : .plain '\'' ∉ es
  starts : (textOf es).head? ≠ some '\''
  ends : ∀ c ∈ (textOf es).getLast?, (Piece.plain c).Seals

/-- What stands inside the brackets of the list of definitions. -/
structure ElementList where
  lead : List Piece
  cells : List Cell
  isLoose : ∀ p ∈ lead, IsLoose p
  areCells : AreCells cells
  cuts : Cuts (.plain '[' :: (lead ++ cellPieces cells ++ plains "]\n"))
  separate : ∀ s ∈ cells, Separate s.core

structure Layout where
  opening : Opening
  block : FieldBlock
  segments : List Segment
  listed : ElementList

theorem exists_gap {t : Text} (h : IsGapText t) : ∃ g : GapLines, textOf g.pieces = t := by
  obtain ⟨gs, rfl, hcuts, hgs⟩ := h
  have gap : ∀ p ∈ gs ++ [.plain '\n'], IsGap p :=
    List.forall_mem_append.mpr ⟨hgs, by simp [IsGap]⟩
  have begins : BeginsLine (textOf (gs ++ [.plain '\n'])) := by
    rw [textOf_append]
    exact beginsLine_newline _
  exact ⟨⟨gs ++ [.plain '\n'], gap, hcuts, begins⟩, rfl⟩

namespace IndexFunction

def pieces (f : IndexFunction) : List Piece :=
  plains ("pub fn " ++ f.name ++ "() -> IndexDef ") ++
    .plain '\x7b' :: (f.inner ++ plains "\x7d\n")

end IndexFunction

namespace Row

def parts : Row → List Code.Part
  | gap g => g.pieces.map .gap
  | entry e => gapsOf e.indent ++ [.group e.inner, .comma] ++ gapsOf "\n"

end Row

namespace FieldBlock

def rows : FieldBlock → List Row
  | inline => []
  | lines rows _ _ => rows

def parts : FieldBlock → List Code.Part
  | inline => []
  | lines rows tail _ => gapsOf "\n" ++ rows.flatMap Row.parts ++ gapsOf tail

end FieldBlock

namespace Segment

def lead (s : Segment) : List Piece :=
  (s.marker.map fun m => [.comment ("// " ++ m), .plain '\n']).getD []

def bodyPieces (s : Segment) : List Piece :=
  match s.body with
  | .function f => f.pieces
  | .gap g => g.pieces

def pieces (s : Segment) : List Piece := s.lead ++ s.bodyPieces ++ plains "\n"

/-- The name of the function, unless it was commented out. -/
def function? (s : Segment) : Option Text :=
  match s.body with
  | .function f => some f.name
  | .gap _ => none

end Segment

namespace ElementList

def pieces (d : ElementList) : List Piece := d.lead ++ cellPieces d.cells

/-- The elements, as they are written. -/
def texts (d : ElementList) : List Text := d.cells.map fun s => textOf s.core

end ElementList

namespace Layout

variable (l : Layout)

/-- The functions of the indexes. -/
def functions : List Text := l.segments.filterMap Segment.function?

def pre : List Piece := l.opening.pieces ++ plains ".fields(vec!"

/-- The pieces up to some segments and these. -/
def upTo (ss : List Segment) : List Piece :=
  l.pre ++ .plain '[' :: (piecesOf l.block.parts ++
    .plain ']' :: (plains ")\n\x7d\n\n" ++ ss.flatMap Segment.pieces))

def pieces : List Piece := l.upTo l.segments ++ listing l.listed.pieces

def text : Text := textOf l.pieces

end Layout

/-! ## Cuts -/

theorem cuts_flatMap {α : Type} {f : α → List Piece} {l : List α} (h : ∀ a ∈ l, Cuts (f a)) :
    Cuts (l.flatMap f) := by
  induction l with
  | nil => exact cuts_nil
  | cons a l ih =>
    obtain ⟨ha, hl⟩ := List.forall_mem_cons.mp h
    exact ha.append (ih hl)

theorem isBlank_newline : ∀ c ∈ ("\n" : Text), Text.isBlank c = true := by decide

theorem cuts_newline : Cuts (plains "\n") := cuts_blanks isBlank_newline

theorem Row.cuts (r : Row) : Cuts (piecesOf r.parts) := by
  cases r with
  | gap g =>
    rw [parts, piecesOf_map_gap]
    exact g.cuts
  | entry e =>
    have blanks : ∀ c ∈ e.indent, Text.isBlank c = true := fun c hc =>
      isBlank_of_isIndent (e.isIndent c hc)
    have comma : Cuts (plains ",\n") := cuts_plains_of_seals (by decide)
    have form : piecesOf (Row.entry e).parts =
        plains e.indent ++ ((Code.Part.group e.inner).pieces ++ plains ",\n") := by
      simp [parts, Code.Part.pieces]
    rw [form]
    exact (cuts_blanks blanks).append (e.cuts.append comma)

theorem piecesOf_flatMap {α : Type} (f : α → List Code.Part) (l : List α) :
    piecesOf (l.flatMap f) = l.flatMap fun a => piecesOf (f a) := List.flatMap_assoc

theorem FieldBlock.cuts (b : FieldBlock) : Cuts (piecesOf b.parts) := by
  cases b with
  | inline => exact cuts_nil
  | lines rows tail h =>
    rw [parts, piecesOf_append, piecesOf_append, piecesOf_gapsOf, piecesOf_gapsOf, piecesOf_flatMap]
    have blanks : ∀ c ∈ tail, Text.isBlank c = true := fun c hc => isBlank_of_isIndent (h c hc)
    exact (cuts_newline.append (cuts_flatMap fun r _ => r.cuts)).append (cuts_blanks blanks)

theorem IndexFunction.cuts_pieces (f : IndexFunction) : Cuts f.pieces := by
  have head : Cuts (plains ("pub fn " ++ f.name ++ "() -> IndexDef ")) :=
    cuts_ident f.isIdent (by decide) (by decide) ⟨' ', rfl, by decide⟩
  have opening : Cuts (plains "\x7b") := cuts_plains_of_seals (by decide)
  have closing : Cuts (plains "\x7d\n") := cuts_plains_of_seals (by decide)
  exact head.append (opening.append (f.cuts.append closing))

theorem Segment.cuts (s : Segment) : Cuts s.pieces := by
  have lead : Cuts s.lead := by
    unfold Segment.lead
    cases hm : s.marker with
    | none => exact cuts_nil
    | some m =>
      have line : '\n' ∉ ' ' :: m := by simpa using s.isLine m hm
      exact cuts_comment line
  have body : Cuts s.bodyPieces := by
    unfold Segment.bodyPieces
    cases s.body with
    | function f => exact f.cuts_pieces
    | gap g => exact g.cuts
  exact (lead.append body).append cuts_newline

theorem ElementList.cuts_listing (d : ElementList) : Cuts (listing d.pieces) := by
  have opening : Cuts (plains listHead) := cuts_plains (by decide) (by decide)
  have closing : Cuts (plains "\x7d\n") := cuts_plains_of_seals (by decide)
  have form : listing d.pieces = plains listHead ++
      (.plain '[' :: (d.lead ++ cellPieces d.cells ++ plains "]\n") ++ plains "\x7d\n") := by
    simp [listing, pieces]
  rw [form]
  exact opening.append (d.cuts.append closing)

theorem Layout.cuts (l : Layout) : Cuts l.pieces := by
  have call : Cuts (plains ".fields(vec!") := cuts_plains_of_seals (by decide)
  have opening : Cuts (plains "[") := cuts_plains_of_seals (by decide)
  have closing : Cuts (plains ("]" ++ ")\n\x7d\n\n")) := cuts_plains_of_seals (by decide)
  have form : l.pieces = (l.opening.pieces ++ plains ".fields(vec!") ++ (plains "[" ++
      (piecesOf l.block.parts ++ (plains ("]" ++ ")\n\x7d\n\n") ++
        (l.segments.flatMap Segment.pieces ++ listing l.listed.pieces)))) := by
    simp [Layout.pieces, Layout.upTo, Layout.pre]
  rw [form]
  exact (l.opening.cuts.append call).append (opening.append (l.block.cuts.append
    (closing.append ((cuts_flatMap fun s _ => s.cuts).append l.listed.cuts_listing))))

/-- The pieces of a text with a layout. -/
theorem Layout.pieces_text (l : Layout) : Code.pieces 0 none l.text = l.pieces := by
  have whole := l.cuts.pieces_append none []
  rw [List.append_nil] at whole
  rw [Layout.text, whole]
  simp [Code.pieces]

end SchemaDrift.Merge
