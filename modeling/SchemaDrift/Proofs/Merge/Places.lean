import SchemaDrift.Proofs.Merge.Enlisting
import SchemaDrift.Proofs.Merge.Layout

namespace SchemaDrift.Merge

open Code

/-!
# What is found in a layout

In a layout the list of fields is the one of the model, the list of definitions is the last one, and
a function is found just if it is one of those that the segments declare.
-/

variable {name : Text} {ps : List Piece}

/-! ## Silence -/

theorem mute_of_gaps (h : ∀ p ∈ ps, IsGap p) : Mute ps := by
  induction ps with
  | nil => exact mute_nil
  | cons p ps ih =>
    obtain ⟨hp, hps⟩ := List.forall_mem_cons.mp h
    have own : Mute [p] := by
      cases p with
      | literal q t => exact absurd hp id
      | comment t => exact mute_comment t
      | plain c =>
        have none : ∀ d ∈ ['p', 'f', '.'], Text.isBlank d = false := by decide
        refine mute_plains (t := [c]) (avoids_of_forall fun d hd hm => ?_)
        rw [List.mem_singleton.mp hd] at hm
        have blank : Text.isBlank c = true := hp
        rw [none c hm] at blank
        cases blank
    exact own.append (ih hps)

theorem silent_flatMap {α : Type} {pattern : Pattern} {f : α → List Piece} {l : List α}
    (h : ∀ a ∈ l, Silent pattern (f a)) : Silent pattern (l.flatMap f) := by
  induction l with
  | nil => exact silent_nil
  | cons a l ih =>
    obtain ⟨ha, hl⟩ := List.forall_mem_cons.mp h
    exact ha.append (ih hl)

theorem Row.mute (r : Row) : Mute (piecesOf r.parts) := by
  cases r with
  | gap g =>
    rw [parts, piecesOf_map_gap]
    exact mute_of_gaps g.isGap
  | entry e =>
    have blanks : ∀ p ∈ plains e.indent, IsGap p :=
      isGap_plains fun c hc => isBlank_of_isIndent (e.isIndent c hc)
    have opening : Mute (plains "(") := mute_plains (by decide)
    have closing : Mute (plains "),\n") := mute_plains (by decide)
    have form : piecesOf (Row.entry e).parts =
        plains e.indent ++ (plains "(" ++ (e.inner ++ plains "),\n")) := by
      simp [parts, Code.Part.pieces]
    rw [form]
    exact (mute_of_gaps blanks).append (opening.append (e.mute.append closing))

theorem FieldBlock.mute (b : FieldBlock) : Mute (piecesOf b.parts) := by
  cases b with
  | inline => exact mute_nil
  | lines rows tail h =>
    have blanks : ∀ p ∈ plains tail, IsGap p :=
      isGap_plains fun c hc => isBlank_of_isIndent (h c hc)
    have newline : ∀ p ∈ plains "\n", IsGap p := isGap_plains isBlank_newline
    rw [parts, piecesOf_append, piecesOf_append, piecesOf_gapsOf, piecesOf_gapsOf, piecesOf_flatMap]
    refine ((mute_of_gaps newline).append fun word hw => ?_).append (mute_of_gaps blanks)
    exact silent_flatMap fun r _ => r.mute word hw

theorem IndexFunction.silent_pieces (f : IndexFunction) (hname : IsIdent name)
    (hne : name ≠ f.name) : Silent (functionPattern name) f.pieces := by
  have result : Silent (functionPattern name) (plains ") -> IndexDef \x7b") :=
    silent_functionPattern_plains (by decide)
  have closing : Silent (functionPattern name) (plains "\x7d\n") :=
    silent_functionPattern_plains (by decide)
  have form : f.pieces = plains ("pub fn " ++ f.name ++ "(") ++
      (plains ") -> IndexDef \x7b" ++ (f.inner ++ plains "\x7d\n")) := by
    simp [pieces]
  rw [form]
  exact (silent_functionHead f.isIdent hname hne).append
    (result.append ((f.silent name).append closing))

theorem Segment.silent_lead (s : Segment) : Silent (functionPattern name) s.lead := by
  have newline : Silent (functionPattern name) (plains "\n") :=
    silent_functionPattern_plains (by decide)
  unfold lead
  cases s.marker with
  | none => exact silent_nil
  | some m => exact (silent_comment _).append newline

theorem Segment.silent (s : Segment) (hname : IsIdent name) (hne : s.function? ≠ some name) :
    Silent (functionPattern name) s.pieces := by
  have newline : Silent (functionPattern name) (plains "\n") :=
    silent_functionPattern_plains (by decide)
  have body : Silent (functionPattern name) s.bodyPieces := by
    unfold function? at hne
    unfold bodyPieces
    cases hs : s.body with
    | function f =>
      rw [hs] at hne
      exact f.silent_pieces hname fun he => hne (congrArg some he.symm)
    | gap g => exact (mute_of_gaps g.isGap).silent_functionPattern
  exact (s.silent_lead.append body).append newline

theorem mute_of_loose (h : ∀ p ∈ ps, IsLoose p) : Mute ps := by
  induction ps with
  | nil => exact mute_nil
  | cons p ps ih =>
    obtain ⟨hp, hps⟩ := List.forall_mem_cons.mp h
    have own : Mute [p] := by
      rcases hp with hgap | rfl
      · exact mute_of_gaps (List.forall_mem_singleton.mpr hgap)
      · exact mute_plains (t := ",") (by decide)
    exact own.append (ih hps)

theorem silent_cells {ss : List Cell} (h : AreCells ss) (hs : ∀ s ∈ ss, Separate s.core) :
    Silent (functionPattern name) (cellPieces ss) := by
  induction ss with
  | nil => exact silent_nil
  | cons s ss ih =>
    obtain ⟨-, htail, -, hrest⟩ := h
    obtain ⟨hown, hothers⟩ := List.forall_mem_cons.mp hs
    rw [cellPieces_cons]
    exact (hown.silent name).append
      ((mute_of_loose htail).silent_functionPattern.append (ih hrest hothers))

theorem ElementList.silent_listing (d : ElementList) (hname : IsIdent name)
    (hne : name ≠ Source.aggregate) : Silent (functionPattern name) (listing d.pieces) := by
  have opening : Silent (functionPattern name) (plains ") -> Vec<Definition> \x7b\n    vec![") :=
    silent_functionPattern_plains (by decide)
  have closing : Silent (functionPattern name) (plains "]\n\x7d\n") :=
    silent_functionPattern_plains (by decide)
  have word : (listHead ++ ['['] : Text) = "pub fn " ++ Source.aggregate ++ "(" ++
      ") -> Vec<Definition> \x7b\n    vec![" := by decide
  have form : listing d.pieces = plains ("pub fn " ++ Source.aggregate ++ "(") ++
      (plains ") -> Vec<Definition> \x7b\n    vec![" ++
        (d.lead ++ (cellPieces d.cells ++ plains "]\n\x7d\n"))) := by
    have head : listing d.pieces = plains (listHead ++ ['[']) ++
        (d.lead ++ (cellPieces d.cells ++ plains "]\n\x7d\n")) := by
      simp [listing, pieces]
    rw [head, word, plains_append, List.append_assoc]
  rw [form]
  exact (silent_functionHead isIdent_aggregate hname hne).append (opening.append
    ((mute_of_loose d.isLoose).silent_functionPattern.append
      ((silent_cells d.areCells d.separate).append closing)))

/-! ## Functions -/

namespace Layout

variable (l : Layout) {as bs ss : List Segment} {s : Segment} {f : IndexFunction}

theorem pieces_eq_upTo (h : l.segments = as ++ bs) : l.pieces =
    l.upTo as ++ (bs.flatMap Segment.pieces ++ listing l.listed.pieces) := by
  simp [pieces, upTo, h]

/-- No head of another function starts in front of the list of definitions. -/
theorem silent_upTo (hname : IsIdent name) (hmodel : name ≠ "model")
    (hss : ∀ s ∈ ss, s.function? ≠ some name) : Silent (functionPattern name) (l.upTo ss) := by
  have call : Silent (functionPattern name) (plains (".fields(vec!" ++ "[")) :=
    silent_functionPattern_plains (by decide)
  have closing : Silent (functionPattern name) (plains ("]" ++ ")\n\x7d\n\n")) :=
    silent_functionPattern_plains (by decide)
  have form : l.upTo ss = l.opening.pieces ++ (plains (".fields(vec!" ++ "[") ++
      (piecesOf l.block.parts ++
        (plains ("]" ++ ")\n\x7d\n\n") ++ ss.flatMap Segment.pieces))) := by
    simp [upTo, pre]
  rw [form]
  exact (l.opening.functions name hname hmodel).append (call.append
    (l.block.mute.silent_functionPattern.append
      (closing.append (silent_flatMap fun s hs => s.silent hname (hss s hs)))))

theorem function?_eq_none (hname : IsIdent name) (hmodel : name ≠ "model")
    (haggregate : name ≠ Source.aggregate) (hnot : name ∉ l.functions) :
    Code.function? l.text name = none := by
  refine Code.function?_eq_none ?_
  rw [l.pieces_text, pieces]
  exact (l.silent_upTo hname hmodel fun s hs he => hnot
    (List.mem_filterMap.mpr ⟨s, hs, he⟩)).append (l.listed.silent_listing hname haggregate)

theorem exists_textOf_bodyPieces (s : Segment) {t : Text} (h : BeginsLine t) :
    BeginsLine (t ++ textOf s.bodyPieces) := by
  refine h.append ?_
  unfold Segment.bodyPieces
  cases s.body with
  | gap g => exact g.begins
  | function f =>
    have last : textOf f.pieces = "pub fn " ++ f.name ++ "() -> IndexDef " ++
        ('\x7b' :: (textOf f.inner ++ ['\x7d'])) ++ ['\n'] := by
      simp [IndexFunction.pieces, Piece.text]
    change BeginsLine (textOf f.pieces)
    rw [last]
    exact beginsLine_newline _

/-- Each segment ends with an empty line. -/
theorem exists_textOf_upTo (ss : List Segment) : ∃ u, textOf (l.upTo ss) = u ++ "\n\n" := by
  induction ss using List.reverseRecOn with
  | nil =>
    exact ⟨textOf l.pre ++ '[' :: (textOf (piecesOf l.block.parts) ++ "])\n\x7d"),
      by simp [upTo, Piece.text]⟩
  | append_singleton ss s ih =>
    obtain ⟨u, hu⟩ := ih
    have lead : BeginsLine (textOf (l.upTo ss) ++ textOf s.lead) := by
      rw [hu]
      refine (detached_blank u).beginsLine.append ?_
      unfold Segment.lead
      cases s.marker with
      | none => simp [BeginsLine]
      | some m => exact beginsLine_newline ("// " ++ m)
    have split : textOf (l.upTo (ss ++ [s])) =
        textOf (l.upTo ss) ++ textOf s.lead ++ textOf s.bodyPieces ++ ['\n'] := by
      simp [upTo, Segment.pieces, Piece.text]
    rcases (exists_textOf_bodyPieces s lead).cases with hnil | ⟨v, hv⟩
    · rw [hu] at hnil
      simp at hnil
    · exact ⟨v, by rw [split, hv]; simp⟩

/-- The line above a function is empty or a marker. -/
theorem detached_lead (ss : List Segment) (s : Segment) :
    Detached (textOf (l.upTo ss ++ s.lead)) := by
  obtain ⟨u, hu⟩ := l.exists_textOf_upTo ss
  rw [textOf_append, hu]
  unfold Segment.lead
  cases hm : s.marker with
  | none =>
    have own := detached_blank u
    simpa using own
  | some m =>
    have own := detached_markerLine (u ++ ['\n']) (s.isLine m hm)
    have form : u ++ ['\n'] ++ '\n' :: markerLine [] m =
        u ++ "\n\n" ++ textOf [.comment ("// " ++ m), .plain '\n'] := by
      simp [markerLine, Piece.text]
    rwa [form] at own

/-- A function that a segment declares is found there. -/
theorem function?_eq_some (hs : l.segments = as ++ s :: bs) (hf : s.body = .function f)
    (hfirst : ∀ a ∈ as, a.function? ≠ some f.name) :
    Code.function? l.text f.name = some (textOf (l.upTo as ++ s.lead)).length := by
  have head : plains ("pub fn " ++ f.name ++ "() -> IndexDef ") =
      plains ("pub fn " ++ f.name ++ "() ->") ++ plains " IndexDef " := by
    simp
  have whole : Code.pieces 0 none l.text = (l.upTo as ++ s.lead) ++
      (plains ("pub fn " ++ f.name ++ "() ->") ++
        (plains " IndexDef " ++ .plain '\x7b' :: (f.inner ++
        plains "\x7d\n") ++ (plains "\n" ++ (bs.flatMap Segment.pieces ++
          listing l.listed.pieces)))) := by
    rw [l.pieces_text, l.pieces_eq_upTo hs, List.flatMap_cons, Segment.pieces,
      Segment.bodyPieces, hf]
    simp only [IndexFunction.pieces]
    rw [head]
    simp only [List.append_assoc, List.cons_append]
  exact Code.function?_eq_some f.isIdent whole
    ((l.silent_upTo f.isIdent f.ne_model hfirst).append s.silent_lead)
    (not_isWord_of_beginsLine (l.detached_lead as s).beginsLine)

/-! ## Lists -/

theorem ends : Ends l.text (l.upTo l.segments) l.listed.pieces where
  pieces_eq := l.pieces_text
  silent := l.silent_upTo isIdent_aggregate (by decide) fun s _ he => by
    unfold Segment.function? at he
    split at he
    · rename_i f _
      exact f.ne_aggregate (Option.some.inj he)
    · cases he
  begins := by
    obtain ⟨u, hu⟩ := l.exists_textOf_upTo l.segments
    rw [hu]
    exact (detached_blank u).beginsLine
  isPaired := isPaired_cells l.listed.isLoose l.listed.areCells

/-- What stands behind the list of fields. -/
def post : List Piece := plains ")\n\x7d\n\n" ++ (l.segments.flatMap Segment.pieces ++
  listing l.listed.pieces)

end Layout

theorem Row.isSound (r : Row) : ∀ p ∈ r.parts, p.IsSound := by
  cases r with
  | gap g => exact isSound_map_gap g.isGap
  | entry e =>
    have blanks : ∀ p ∈ gapsOf e.indent, p.IsSound :=
      isSound_map_gap (isGap_plains fun c hc => isBlank_of_isIndent (e.isIndent c hc))
    have newline : ∀ p ∈ gapsOf "\n", p.IsSound := isSound_map_gap (isGap_plains isBlank_newline)
    have group : ∀ p ∈ [Code.Part.group e.inner, .comma], p.IsSound :=
      List.forall_mem_cons.mpr ⟨e.isPaired, by simp [Code.Part.IsSound]⟩
    exact List.forall_mem_append.mpr ⟨List.forall_mem_append.mpr ⟨blanks, group⟩, newline⟩

theorem FieldBlock.isSound (b : FieldBlock) : ∀ p ∈ b.parts, p.IsSound := by
  cases b with
  | inline => nofun
  | lines rows tail h =>
    have newline : ∀ p ∈ gapsOf "\n", p.IsSound := isSound_map_gap (isGap_plains isBlank_newline)
    have blanks : ∀ p ∈ gapsOf tail, p.IsSound :=
      isSound_map_gap (isGap_plains fun c hc => isBlank_of_isIndent (h c hc))
    refine List.forall_mem_append.mpr ⟨List.forall_mem_append.mpr ⟨newline, fun p hp => ?_⟩, blanks⟩
    obtain ⟨r, -, hr⟩ := List.mem_flatMap.mp hp
    exact r.isSound p hr

theorem alternate_rows (rows : List Row) {rest : List Code.Part} (h : Alternate false rest) :
    Alternate false (rows.flatMap Row.parts ++ rest) := by
  induction rows with
  | nil => exact h
  | cons r rows ih =>
    rw [List.flatMap_cons, List.append_assoc, alternate_append]
    cases r with
    | gap g =>
      rw [Row.parts, openAfter_gaps]
      exact ⟨alternate_gaps _, ih⟩
    | entry e =>
      have row : Alternate false (Row.entry e).parts ∧
          openAfter false (Row.entry e).parts = false := by
        rw [Row.parts, List.append_assoc, alternate_append, gapsOf, openAfter_append,
          openAfter_gaps]
        exact ⟨⟨alternate_gaps _, rfl, trivial⟩, rfl⟩
      rw [row.2]
      exact ⟨row.1, ih⟩

theorem FieldBlock.alternate (b : FieldBlock) : Alternate false b.parts := by
  cases b with
  | inline => trivial
  | lines rows tail h =>
    rw [parts, List.append_assoc, alternate_append, gapsOf, openAfter_gaps]
    exact ⟨alternate_gaps _, alternate_rows rows (alternate_gaps _)⟩

/-! ## Loose quotes -/

theorem IsIdent.not_quote (h : IsIdent name) : '\'' ∉ name := fun hm =>
  absurd (h.chars _ hm) (by decide)

theorem Row.not_quote (r : Row) : .plain '\'' ∉ piecesOf r.parts := by
  cases r with
  | gap g =>
    rw [parts, piecesOf_map_gap]
    exact not_quote_of_gaps g.isGap
  | entry e =>
    have blanks : .plain '\'' ∉ plains e.indent :=
      not_quote_of_gaps (isGap_plains fun c hc => isBlank_of_isIndent (e.isIndent c hc))
    simp [parts, Code.Part.pieces, blanks, e.notQuote]

theorem FieldBlock.not_quote (b : FieldBlock) : .plain '\'' ∉ piecesOf b.parts := by
  cases b with
  | inline => nofun
  | lines rows tail h =>
    have blanks : .plain '\'' ∉ plains tail :=
      not_quote_of_gaps (isGap_plains fun c hc => isBlank_of_isIndent (h c hc))
    rw [parts, piecesOf_append, piecesOf_append, piecesOf_gapsOf, piecesOf_gapsOf, piecesOf_flatMap]
    simp only [List.mem_append, not_or]
    refine ⟨⟨by decide, fun hm => ?_⟩, blanks⟩
    obtain ⟨r, -, hr⟩ := List.mem_flatMap.mp hm
    exact r.not_quote hr

theorem Segment.not_quote (s : Segment) : .plain '\'' ∉ s.pieces := by
  have lead : .plain '\'' ∉ s.lead := by
    unfold Segment.lead
    cases s.marker with
    | none => nofun
    | some m => simp
  have body : .plain '\'' ∉ s.bodyPieces := by
    unfold Segment.bodyPieces
    cases s.body with
    | gap g => exact not_quote_of_gaps g.isGap
    | function f =>
      have head : .plain '\'' ∉ plains ("pub fn " ++ f.name ++ "() -> IndexDef ") := by
        refine not_mem_plains ?_
        simp [IsIdent.not_quote f.isIdent]
      change _ ∉ f.pieces
      simp only [IndexFunction.pieces, List.mem_append, List.mem_cons, not_or]
      exact ⟨head, by decide, f.notQuote, by decide⟩
  simp only [Segment.pieces, List.mem_append, not_or]
  exact ⟨⟨lead, body⟩, by decide⟩

theorem not_quote_of_loose (h : ∀ p ∈ ps, IsLoose p) : .plain '\'' ∉ ps := fun hm =>
  (h _ hm).elim (fun hgap => absurd hgap (show ¬ Text.isBlank '\'' = true by decide)) nofun

theorem not_quote_cells {ls : List Piece} {ss : List Cell} (hls : ∀ p ∈ ls, IsLoose p)
    (h : AreCells ss) (hs : ∀ s ∈ ss, Separate s.core) : .plain '\'' ∉ ls ++ cellPieces ss := by
  rw [List.mem_append, not_or]
  refine ⟨not_quote_of_loose hls, ?_⟩
  induction ss with
  | nil => nofun
  | cons s ss ih =>
    obtain ⟨-, htail, -, hrest⟩ := h
    obtain ⟨hown, hothers⟩ := List.forall_mem_cons.mp hs
    simp only [cellPieces_cons, List.mem_append, not_or]
    exact ⟨hown.notQuote, not_quote_of_loose htail, ih hrest hothers⟩

theorem ElementList.not_quote (d : ElementList) : .plain '\'' ∉ d.pieces :=
  not_quote_cells d.isLoose d.areCells d.separate

theorem Layout.not_quote (l : Layout) : .plain '\'' ∉ l.pieces := by
  have segments : .plain '\'' ∉ l.segments.flatMap Segment.pieces := fun hm => by
    obtain ⟨s, -, hs⟩ := List.mem_flatMap.mp hm
    exact s.not_quote hs
  simp only [Layout.pieces, Layout.upTo, Layout.pre, listing, List.mem_append, List.mem_cons,
    not_or]
  exact ⟨⟨⟨l.opening.notQuote, by decide⟩, by decide, l.block.not_quote, by decide, by decide,
    segments⟩, by decide, by decide, l.listed.not_quote, by decide, by decide⟩

/-- The list of fields of a layout is a list of parts. -/
theorem Layout.isListed (l : Layout) : Listed l.text l.pre l.block.parts l.post ']' where
  framed := by
    have whole : Code.pieces 0 none l.text = l.opening.pieces ++ .plain '.' ::
        (plains "fields(vec!" ++ .plain '[' ::
          (piecesOf l.block.parts ++ .plain ']' :: l.post)) := by
      rw [l.pieces_text]
      simp [Layout.pieces, Layout.upTo, Layout.pre, Layout.post]
    refine ⟨?_, ⟨(textOf l.opening.pieces).length, by simp [Layout.pre], ?_⟩,
      isPaired_piecesOf l.block.isSound, by decide⟩
    · rw [whole]
      simp [Layout.pre]
    · have text : textOf (.plain '.' :: (plains "fields(vec!" ++ .plain '[' ::
          (piecesOf l.block.parts ++ .plain ']' :: l.post))) =
            '.' :: "fields(vec![" ++ textOf (piecesOf l.block.parts ++ .plain ']' :: l.post) := by
        simp [Piece.text]
      have found := find?_eq_some whole l.opening.fields rfl text stops_fieldsPattern
        (r := textOf (piecesOf l.block.parts ++ .plain ']' :: l.post)) rfl
      rw [found]
      simp [Layout.pre, Piece.text]
      omega
  sound := l.block.isSound
  quotes := by
    rw [l.pieces_text]
    exact noLooseQuote_of_not_mem l.not_quote

/-- The list of definitions of a layout can be cut at its elements. -/
theorem Layout.separable (l : Layout) : Separable l.text := by
  have texts := definitionTexts_of_cells l.ends.inBody l.listed.isLoose l.listed.areCells
  refine ⟨l.isListed.quotes, fun start opening closing hstart hlist => ?_, fun x hx => ?_,
    fun x hx => ?_⟩
  · exact l.ends.close_mem_head hstart hlist
  · rw [texts] at hx
    obtain ⟨s, hs, rfl⟩ := List.mem_map.mp hx
    exact (l.listed.separate s hs).starts
  · rw [texts] at hx
    obtain ⟨s, hs, rfl⟩ := List.mem_map.mp hx
    exact (l.listed.separate s hs).ends

end SchemaDrift.Merge
