import SchemaDrift.Proofs.Merge.Rows
import SchemaDrift.Proofs.Merge.Segments

namespace SchemaDrift.Merge

open Code

/-!
# Generated files

The file that is generated for a table has a layout: a row for each field, a segment for each index,
and the list of definitions.
-/

variable {t : Table} {name : Text} {ps : List Piece}

/-! ## The opening -/

theorem silent_fieldsPattern_plains {x : Text} (h : avoids ".fields(" x = true) :
    Silent fieldsPattern (plains x) := by
  refine silent_plains fun u c v hsplit before rest => ?_
  refine Option.eq_none_iff_forall_ne_some.mpr fun r hr => ?_
  obtain ⟨behind, hword, -⟩ := Option.bind_eq_some_iff.mp hr
  have away := agree_eq_false_of_avoids (hsplit ▸ h)
  rw [agree_of_stripStart hword] at away
  cases away

/-- Whether pieces can stand in front of the list of fields. -/
structure Opens (ps : List Piece) : Prop where
  cuts : Cuts ps
  fields : Silent fieldsPattern ps
  functions : ∀ name, IsIdent name → name ≠ "model" → Silent (functionPattern name) ps
  notQuote : .plain '\'' ∉ ps

def Opens.opening (h : Opens ps) : Opening where
  pieces := ps
  cuts := h.cuts
  fields := h.fields
  functions := h.functions
  notQuote := h.notQuote

theorem Opens.pieces_opening (h : Opens ps) : h.opening.pieces = ps := rfl

theorem Opens.append {qs : List Piece} (hp : Opens ps) (hq : Opens qs) : Opens (ps ++ qs) where
  cuts := hp.cuts.append hq.cuts
  fields := hp.fields.append hq.fields
  functions name hname hne := (hp.functions name hname hne).append (hq.functions name hname hne)
  notQuote := by
    rw [List.mem_append, not_or]
    exact ⟨hp.notQuote, hq.notQuote⟩

theorem opens_of_mute (hc : Cuts ps) (hm : Mute ps) (hq : .plain '\'' ∉ ps) : Opens ps :=
  ⟨hc, hm.silent_fieldsPattern, fun _ _ _ => hm.silent_functionPattern, hq⟩

theorem opens_run {x : Text} (h : Source.IsRun x) : Opens (plains x) :=
  opens_of_mute h.cuts h.mute h.not_quote

theorem exists_opens_comment {x : Text} (h : '\n' ∉ x) :
    ∃ ps, Opens ps ∧ textOf ps = "//" ++ x ++ "\n" :=
  ⟨_, opens_of_mute (cuts_comment h) ((mute_comment _).append (mute_plains (t := "\n") (by decide)))
    (by simp), by simp [Piece.text]⟩

theorem exists_opens_of_isExpr {e : Text} (h : Source.IsExpr e) :
    ∃ ps, Opens ps ∧ textOf ps = e := by
  obtain ⟨ps, hcuts, htext, -, hquote, hmute⟩ := h
  exact ⟨ps, opens_of_mute hcuts hmute hquote, htext⟩

/-- The head of the function of the model. -/
theorem opens_head : Opens (plains "pub fn model() -> Model \x7b\n    ") where
  cuts := by
    have own : Cuts (plains "pub fn model() -> Model \x7b\n    ") :=
      cuts_plains (by decide) (by decide)
    exact own
  fields := silent_fieldsPattern_plains (by decide)
  functions name hname hne := by
    have behind : Silent (functionPattern name) (plains ") -> Model \x7b\n    ") :=
      silent_functionPattern_plains (by decide)
    exact (silent_functionHead isIdent_model hname hne).append behind
  notQuote := not_mem_plains (by decide)

theorem exists_opens_imports : ∃ ps, Opens ps ∧ textOf ps = Source.imports := by
  have sign : Opens (plains "#") := by
    refine opens_of_mute (fun before rest => ⟨⟨'#', [], rfl, ?_⟩, trivial⟩)
      (mute_plains (by decide))
      (by decide)
    exact first_of_none (comment?_eq_none_iff.mpr (by simp)) rfl
  have allow : Opens (plains "[allow(unused_imports)]\n") := opens_run (by decide)
  have path : Opens (plains "use schema_sync_core::model::\x7b") := opens_run (by decide)
  have first : Opens (plains "Definition, Field, IndexDef, ") := opens_run (by decide)
  have second : Opens (plains "Model, PermissionKind, Permissions\x7d;\n") := opens_run (by decide)
  have whole : ("#" ++ ("[allow(unused_imports)]\n" ++ ("use schema_sync_core::model::\x7b" ++
      ("Definition, Field, IndexDef, " ++ "Model, PermissionKind, Permissions\x7d;\n"))) : Text) =
        Source.imports := by decide +kernel
  refine ⟨_, sign.append (allow.append (path.append (first.append second))), ?_⟩
  rw [textOf_append, textOf_append, textOf_append, textOf_append, textOf_plains, textOf_plains,
    textOf_plains, textOf_plains, textOf_plains, whole]

theorem exists_opens_preamble (h : '\n' ∉ name) :
    ∃ ps, Opens ps ∧ textOf ps = Source.preamble name := by
  have title : '\n' ∉ ("! Table \x60" : Text) ++ name ++ "\x60." := by
    have word : '\n' ∉ ("! Table \x60" : Text) ∧ '\n' ∉ ("\x60." : Text) := by decide
    intro hm
    rcases List.mem_append.mp hm with hm | hm
    · exact (List.mem_append.mp hm).elim word.1 h
    · exact word.2 hm
  have origin : '\n' ∉ ("! Generated by schema-sync. Hand edits are kept when the file is merged." :
      Text) := by decide
  have newline : Opens (plains "\n") := opens_run (by decide)
  obtain ⟨ps₁, opens₁, htext₁⟩ := exists_opens_comment title
  obtain ⟨ps₂, opens₂, htext₂⟩ := exists_opens_comment (x := "!") (by decide)
  obtain ⟨ps₃, opens₃, htext₃⟩ := exists_opens_comment origin
  obtain ⟨ps₄, opens₄, htext₄⟩ := exists_opens_imports
  refine ⟨_, opens₁.append ((opens₂.append (opens₃.append newline)).append
    (opens₄.append newline)), ?_⟩
  rw [textOf_append, textOf_append, textOf_append, textOf_append, textOf_append, htext₁, htext₂,
    htext₃, htext₄, textOf_plains]
  have title : ("//" ++ ("! Table \x60" ++ name ++ "\x60.") ++ "\n" : Text) =
      "//! Table \x60" ++ name ++ ("\x60." ++ "\n") := by
    rw [← List.append_assoc ("//" : Text), ← List.append_assoc ("//" : Text), List.append_assoc]
    rfl
  have lines : (("\x60." ++ "\n") ++ ("//" ++ "!" ++ "\n" ++ ("//" ++
      "! Generated by schema-sync. Hand edits are kept when the file is merged." ++ "\n" ++ "\n")) :
        Text) = "\x60.\n//!\n//! Generated by schema-sync. Hand edits are kept " ++
          "when the file is merged.\n\n" := by decide +kernel
  have join (a n c d p q i e : Text) (h : c ++ d = p ++ q) :
      a ++ n ++ c ++ (d ++ (i ++ e)) = a ++ n ++ p ++ q ++ i ++ e := by
    rw [List.append_assoc (a ++ n) p q, ← h]
    simp
  rw [title]
  exact join _ _ _ _ _ _ _ _ lines

theorem isExpr_constructor (m : Model) : Source.IsExpr (Source.constructor m) := by
  unfold Source.constructor
  split
  · rename_i query _ _
    have names : Source.IsExpr (Text.quote m.name ++ ", " ++ Text.quote query) :=
      ((Source.isExpr_quote _).append (Source.isExpr_run (by decide) (by decide))).append
        (Source.isExpr_quote _)
    have call := names.within (a := "Model::view(") (b := ")") (by decide) (by decide) (by decide)
    simpa only [List.append_assoc] using call
  · exact (Source.isExpr_quote _).within (by decide) (by decide) (by decide)
  · exact (Source.isExpr_quote _).within (by decide) (by decide) (by decide)

theorem isExpr_callLine {call : Text} (h : Source.IsExpr call) :
    Source.IsExpr (Source.callLine call) := by
  unfold Source.callLine
  split
  · exact Source.isExpr_nil
  · exact ((Source.isExpr_run (by decide) (by decide)).append h).append
      (Source.isExpr_run (by decide) (by decide))

/-- What a generated file has in front of the call with the list of fields. -/
def fileHead (name : Text) (m : Model) : Text :=
  Source.preamble name ++ ("pub fn model() -> Model \x7b\n    " ++ (Source.constructor m ++ ("\n" ++
    (Source.callLine (Source.bareCall "schemaless" (!m.schemafull)) ++
      (Source.callLine (Source.bareCall "drop" m.drop) ++
        (Source.callLine (Source.permissionsCall m.permissions) ++ "        "))))))

theorem exists_opens_head (h : '\n' ∉ name) (m : Model) :
    ∃ ps, Opens ps ∧ textOf ps = fileHead name m := by
  have body : Source.IsExpr (Source.constructor m ++ ("\n" ++
      (Source.callLine (Source.bareCall "schemaless" (!m.schemafull)) ++
        (Source.callLine (Source.bareCall "drop" m.drop) ++
          (Source.callLine (Source.permissionsCall m.permissions) ++ "        "))))) :=
    (isExpr_constructor m).append ((Source.isExpr_run (by decide) (by decide)).append
      ((isExpr_callLine (Source.isExpr_bareCall (by decide) (by decide) _)).append
        ((isExpr_callLine (Source.isExpr_bareCall (by decide) (by decide) _)).append
          ((isExpr_callLine (Source.isExpr_permissionsCall _)).append
            (Source.isExpr_run (by decide) (by decide))))))
  obtain ⟨ps, opens, htext⟩ := exists_opens_preamble h
  obtain ⟨qs, opens', htext'⟩ := exists_opens_of_isExpr body
  exact ⟨_, opens.append (opens_head.append opens'), by
    rw [textOf_append, textOf_append, htext, htext', textOf_plains, fileHead]⟩

/-! ## Rows and segments -/

theorem exists_rows {indent : Text} (hi : ∀ c ∈ indent, Text.isIndent c = true)
    {fields : List (Text × Declaration)} (h : ∀ f ∈ fields, f.2.Written) :
    ∃ rows : List Row, textOf (piecesOf (rows.flatMap Row.parts)) =
      Source.entryLines indent fields ∧
      rows.filterMap Row.name? = fields.map fun f => f.1.flatMap Text.escape := by
  induction fields with
  | nil => exact ⟨[], rfl, rfl⟩
  | cons f fields ih =>
    obtain ⟨hf, hfields⟩ := List.forall_mem_cons.mp h
    obtain ⟨rows, htext, hnames⟩ := ih hfields
    obtain ⟨e, hname, hentry⟩ := exists_entryRow hf hi f.1
    refine ⟨.entry e :: rows, ?_, ?_⟩
    · have line : Source.entryLines indent (f :: fields) = Source.entry indent f.1 f.2 ++ ",\n" ++
          Source.entryLines indent fields := by
        simp [Source.entryLines_eq_flatMap]
      rw [line, hentry, ← htext]
      simp [Row.parts, Code.Part.text, Code.Part.pieces, Piece.text]
    · rw [List.filterMap_cons, List.map_cons, ← hnames, ← hname]
      rfl

theorem exists_segments {is : List Index} (h : ∀ i ∈ is, i.isDetectionOnly = false) :
    ∃ ss : List Segment, ((is.filterMap Source.indexFunction?).flatMap ('\n' :: ·)) ++ "\n" =
        "\n" ++ textOf (ss.flatMap Segment.pieces) ∧
      ss.filterMap Segment.function? = is.map fun i => Source.functionOf i.name := by
  induction is with
  | nil => exact ⟨[], by simp, rfl⟩
  | cons i is ih =>
    obtain ⟨hi, his⟩ := List.forall_mem_cons.mp h
    obtain ⟨ss, htext, hnames⟩ := ih his
    obtain ⟨f, hname, hsource⟩ := exists_indexFunction hi
    refine ⟨⟨none, by simp, .function f⟩ :: ss, ?_, ?_⟩
    · rw [List.filterMap_cons, hsource, List.flatMap_cons, List.append_assoc, htext]
      simp [Segment.pieces, Segment.lead, Segment.bodyPieces, Piece.text]
    · rw [List.filterMap_cons, List.map_cons, ← hnames, ← hname]
      rfl

/-- The list of fields of a generated file. -/
theorem exists_block {fields : List (Text × Declaration)} (h : ∀ f ∈ fields, f.2.Written) :
    ∃ b : FieldBlock, b.names = (fields.map fun f => f.1.flatMap Text.escape) ∧
      Source.callLine (Source.fieldsCall fields) = "        " ++ (".fields(vec!" ++
        '[' :: (textOf (piecesOf b.parts) ++ ']' :: ")\n")) := by
  cases fields with
  | nil => exact ⟨.inline, rfl, rfl⟩
  | cons f fields =>
    have entries : ∀ c ∈ ("            " : Text), Text.isIndent c = true := by decide
    obtain ⟨rows, htext, hnames⟩ := exists_rows entries h
    have indents : ∀ c ∈ ("        " : Text), Text.isIndent c = true := by decide
    refine ⟨.lines rows "        " indents, hnames, ?_⟩
    have call : Source.fieldsCall (f :: fields) = ".fields(vec![\n" ++
        Source.entryLines "            " (f :: fields) ++ "        ])" := rfl
    have filled : Source.callLine (Source.fieldsCall (f :: fields)) =
        "        " ++ Source.fieldsCall (f :: fields) ++ "\n" := rfl
    rw [filled, call, ← htext]
    simp [FieldBlock.parts, Piece.text]

theorem model_eq {m : Model} {b : FieldBlock} (h : Source.callLine (Source.fieldsCall m.fields) =
    "        " ++ (".fields(vec!" ++ '[' :: (textOf (piecesOf b.parts) ++ ']' :: ")\n"))) :
    Source.preamble name ++ Source.modelFunction m = fileHead name m ++ (".fields(vec!" ++
      '[' :: (textOf (piecesOf b.parts) ++ ']' :: ")\n\x7d\n")) := by
  have join (p q r n x y z s call body close stop behind : Text) (hclose : close ++ stop = behind) :
      p ++ (q ++ r ++ n ++ x ++ y ++ z ++ (s ++ (call ++ '[' :: (body ++ ']' :: close))) ++ stop) =
        p ++ (q ++ (r ++ (n ++ (x ++ (y ++ (z ++ s)))))) ++
        (call ++ '[' :: (body ++ ']' :: behind)) := by
    simp [← hclose]
  have closed : (")\n" ++ "\x7d\n" : Text) = ")\n\x7d\n" := by decide
  unfold fileHead Source.modelFunction
  rw [h]
  exact join _ _ _ _ _ _ _ _ _ _ _ _ _ closed

/-! ## The list of definitions -/

theorem exists_definitionCells {fs : List Text} (h : ∀ f ∈ fs, IsIdent f) :
    ∃ ss : List Cell, AreCells ss ∧ Cuts (cellPieces ss) ∧
      textOf (cellPieces ss) = Text.join ", " (fs.map Source.definition) ∧
        ss.map Cell.core = fs.map fun f => plains (Source.definition f) := by
  induction fs with
  | nil => exact ⟨[], trivial, cuts_nil, rfl, rfl⟩
  | cons f fs ih =>
    obtain ⟨hf, hfs⟩ := List.forall_mem_cons.mp h
    cases fs with
    | nil =>
      refine ⟨[⟨plains (Source.definition f), []⟩], ?_, ?_, by simp, rfl⟩
      · exact ⟨isCore_definition hf, nofun, .inl rfl, trivial⟩
      · simpa using cuts_definition hf
    | cons g fs =>
      obtain ⟨ss, hss, hcuts, htext, hcores⟩ := ih hfs
      have comma : Cuts (plains ", ") := cuts_plains_of_seals (by decide)
      have held : .plain ',' ∈ plains ", " := by decide
      refine ⟨⟨plains (Source.definition f), plains ", "⟩ :: ss, ?_, ?_, ?_, ?_⟩
      · exact ⟨isCore_definition hf, isLoose_plains (by decide), .inr held, hss⟩
      · rw [cellPieces_cons]
        exact (cuts_definition hf).append (comma.append hcuts)
      · rw [cellPieces_cons, List.map_cons, List.map_cons, Text.join_cons_cons, textOf_append,
          textOf_append, htext, textOf_plains, textOf_plains, List.map_cons]
      · rw [List.map_cons, hcores]
        rfl

/-- The list of definitions of a generated file. -/
theorem exists_generated {fs : List Text} (h : ∀ f ∈ fs, IsIdent f) :
    ∃ d : ElementList, textOf d.pieces = Text.join ", " (fs.map Source.definition) ∧
      d.texts = fs.map Source.definition := by
  obtain ⟨ss, hss, hcuts, htext, hcores⟩ := exists_definitionCells h
  have opening : Cuts (plains "[") := cuts_plains_of_seals (by decide)
  have closing : Cuts (plains "]\n") := cuts_plains_of_seals (by decide)
  have separate : ∀ s ∈ ss, Separate s.core := fun s hs => by
    have core := List.mem_map_of_mem (f := Cell.core) hs
    rw [hcores] at core
    obtain ⟨f, hf, he⟩ := List.mem_map.mp core
    exact he ▸ separate_definition (h f hf)
  refine ⟨⟨[], ss, nofun, hss, opening.append (hcuts.append closing), separate⟩, htext, ?_⟩
  rw [ElementList.texts, map_textOf_core, hcores, List.map_map]
  exact List.map_congr_left fun f _ => textOf_plains _

theorem aggregateFunction_eq {is : List Index} {d : ElementList} (h : textOf d.pieces =
      Text.join ", " ((("model" : Text) :: is.map fun i => Source.functionOf i.name).map
        Source.definition)) :
    Source.aggregateFunction is = "\n" ++ textOf (listing d.pieces) := by
  have join (n p a q r list stop word open' : Text) (hword : word = n ++ p)
      (hopen : open' = q ++ (r ++ ['['])) :
      word ++ a ++ open' ++ list ++ stop = n ++ (p ++ a ++ q ++ r ++ '[' :: (list ++ stop)) := by
    simp [hword, hopen]
  have word : ("\npub fn " : Text) = "\n" ++ "pub fn " := by decide
  have opening : ("() -> Vec<Definition> \x7b\n    vec![" : Text) =
      "() -> Vec<Definition> " ++ ("\x7b\n    vec!" ++ ['[']) := by decide
  have text : textOf (listing d.pieces) = listHead ++ '[' :: (textOf d.pieces ++ "]\n\x7d\n") := by
    unfold listing
    rw [textOf_append, textOf_cons, textOf_append, textOf_cons, textOf_plains, textOf_plains]
    rfl
  rw [text, h, List.map_cons, List.map_map]
  unfold Source.aggregateFunction listHead bodyHead
  exact join _ _ _ _ _ _ _ _ _ word opening

/-- A generated file has a layout, with the fields that are declared on their own and the indexes of
the table. -/
theorem exists_layout_file (hname : '\n' ∉ t.name)
    (hm : ∀ i ∈ t.indexes, i.isDetectionOnly = false) :
    ∃ l : Layout, l.text = Source.file t ∧
      l.block.names = (t.outermost.map fun f => f.name.flatMap Text.escape) ∧
      l.functions = (t.indexes.map fun i => Source.functionOf i.name) ∧
      l.listed.texts = (("model" : Text) :: t.indexes.map fun i => Source.functionOf i.name).map
        Source.definition := by
  have written : ∀ f ∈ (Model.ofTable t).fields, f.2.Written := by
    intro f hf
    obtain ⟨g, hg, rfl⟩ := List.mem_map.mp hf
    exact Declaration.written_ofField g (List.mem_filter.mp hg).1
  obtain ⟨ps, opens, hps⟩ := exists_opens_head hname (Model.ofTable t)
  obtain ⟨b, hnames, hblock⟩ := exists_block written
  obtain ⟨ss, hsegments, hfunctions⟩ := exists_segments hm
  have idents : ∀ f ∈ ("model" : Text) :: t.indexes.map fun i => Source.functionOf i.name,
      IsIdent f := by
    refine List.forall_mem_cons.mpr ⟨isIdent_model, fun f hf => ?_⟩
    obtain ⟨i, -, rfl⟩ := List.mem_map.mp hf
    exact isIdent_functionOf i.name
  obtain ⟨d, hd, hlisted⟩ := exists_generated idents
  refine ⟨⟨opens.opening, b, ss, d⟩, ?_, ?_, hfunctions, hlisted⟩
  · have managed : (t.indexes.filter (!·.isDetectionOnly)) = t.indexes :=
      List.filter_eq_self.mpr fun i hi => by simp [hm i hi]
    have join (front call body close newline behind segments functions list : Text)
        (hbehind : behind = close ++ newline)
          (hsegments : functions ++ newline = newline ++ segments) :
        front ++ call ++ '[' :: (body ++ ']' :: (behind ++ (segments ++ list))) =
          front ++ (call ++ '[' :: (body ++ ']' :: close)) ++ functions ++ (newline ++ list) := by
      have middle :=
        congrArg (front ++ (call ++ '[' :: (body ++ ']' :: close)) ++ · ++ list) hsegments
      simpa [hbehind] using middle.symm
    have behind : (")\n\x7d\n\n" : Text) = ")\n\x7d\n" ++ "\n" := by decide
    rw [Layout.text_eq, Source.file, managed, aggregateFunction_eq hd, model_eq hblock, Layout.pre,
      Layout.post, textOf_append, textOf_append, textOf_append, textOf_plains, textOf_plains,
      opens.pieces_opening, hps]
    exact join _ _ _ _ _ _ _ _ _ behind hsegments
  · rw [hnames]
    simp [Model.ofTable]

end SchemaDrift.Merge
