import SchemaDrift.Proofs.Merge.Places
import SchemaDrift.Proofs.Source.Listing

namespace SchemaDrift.Merge

open Code

/-!
# Segments

An index that is removed from a layout turns its function into a comment and is taken off the list
of definitions, and an index that is inserted has its function behind the others and the last place
in the list. Both give a layout again.
-/

variable {name marker : Text} {i : Index}

/-! ## Functions of indexes -/

theorem isIdent_functionOf (index : Text) : IsIdent (Source.functionOf index) := by
  have free {word : Text} (hw : Source.isTaken word = true) : Source.functionOf index ≠ word := by
    rintro rfl
    rw [Source.isTaken_functionOf] at hw
    cases hw
  exact ⟨free (by decide), List.all_eq_true.mp (Source.all_isIdentChar_functionOf index),
    free (by decide), free (by decide)⟩

theorem functionOf_ne_aggregate (index : Text) : Source.functionOf index ≠ Source.aggregate := by
  intro h
  have taken := Source.isTaken_functionOf index
  rw [h] at taken
  exact absurd taken (by decide)

/-- What is written for an index is a function that can stand in a layout. -/
theorem exists_indexFunction (h : i.isDetectionOnly = false) : ∃ f : IndexFunction,
    f.name = Source.functionOf i.name ∧ Source.indexFunction? i = some (textOf f.pieces) := by
  obtain ⟨cs, hcuts, hcolumns, hpaired, hquote, hmute⟩ : Source.IsExpr
      (Text.join ", " (i.columns.map Text.quote)) :=
    Source.isExpr_join (by decide) (by decide) fun e he => by
      obtain ⟨c, -, rfl⟩ := List.mem_map.mp he
      exact Source.isExpr_quote c
  obtain ⟨us, hcuts', hunique, hpaired', hquote', hmute'⟩ : Source.IsExpr
      (Source.bareCall "unique" i.unique) :=
    Source.isExpr_bareCall (by decide) (by decide) i.unique
  have call : Cuts (plains "\n    IndexDef::on(&model(), ") := cuts_plains_of_seals (by decide)
  have opening : Cuts (plains ").fields([") := cuts_plains_of_seals (by decide)
  have closing : Cuts (plains "])") := cuts_plains_of_seals (by decide)
  have whole : Cuts (plains "\n    IndexDef::on(&model(), " ++
      ([.literal '"' (Text.quote i.name)] ++ (plains ").fields([" ++ (cs ++ (plains "])" ++
        (us ++ plains "\n")))))) :=
    call.append ((cuts_quote _).append (opening.append (hcuts.append (closing.append
      (hcuts'.append cuts_newline)))))
  have paired : IsPaired (plains "\n    IndexDef::on(&model(), " ++
      ([.literal '"' (Text.quote i.name)] ++ (plains ").fields([" ++ (cs ++ (plains "])" ++
        (us ++ plains "\n")))))) := by
    have level₁ : level 0 ("\n    IndexDef::on(&model(), " : Text) = some 1 := by decide
    have level₂ : level 1 (marks [.literal '"' (Text.quote i.name)]) = some 1 := rfl
    have level₃ : level 1 (").fields([" : Text) = some 2 := by decide
    have level₄ : level 2 (marks cs) = some 2 := level_add hpaired 2
    have level₅ : level 2 ("])" : Text) = some 0 := by decide
    have level₆ : level 0 (marks us) = some 0 := hpaired'
    simp only [IsPaired, marks_append, marks_plains, level_append, level₁, level₂, level₃, level₄,
      level₅, level₆, Option.bind_some]
    decide
  have quote : .plain '\'' ∉ (plains "\n    IndexDef::on(&model(), " ++
      ([.literal '"' (Text.quote i.name)] ++ (plains ").fields([" ++ (cs ++ (plains "])" ++
        (us ++ plains "\n")))))) := by
    simp only [List.mem_append, not_or]
    exact ⟨by decide, by simp, by decide, hquote, by decide, hquote', by decide⟩
  have silent (other : Text) : Silent (functionPattern other)
      (plains "\n    IndexDef::on(&model(), " ++ ([.literal '"' (Text.quote i.name)] ++
        (plains ").fields([" ++ (cs ++ (plains "])" ++ (us ++ plains "\n")))))) := by
    have code {t : Text} (ht : ∀ word ∈ (["pub", "fn"] : List Text), avoids word t = true) :
        Silent (functionPattern other) (plains t) := silent_functionPattern_plains ht
    exact (code (by decide)).append ((mute_quote _).silent_functionPattern.append
      ((code (by decide)).append (hmute.silent_functionPattern.append
        ((code (by decide)).append (hmute'.silent_functionPattern.append (code (by decide)))))))
  refine ⟨⟨Source.functionOf i.name, _, isIdent_functionOf i.name,
    Source.functionOf_ne_model i.name, functionOf_ne_aggregate i.name, whole, paired, quote,
    silent⟩, rfl, ?_⟩
  rw [Source.indexFunction?, h, if_neg Bool.false_ne_true]
  refine congrArg some ?_
  simp only [IndexFunction.pieces, textOf_append, textOf_cons, textOf_plains, hcolumns, hunique,
    List.append_assoc, Piece.text]
  rfl

/-! ## Lists of definitions -/

theorem separate_definition (h : IsIdent name) : Separate (plains (Source.definition name)) where
  silent other := by
    have behind : Silent (functionPattern other) (plains ").into()") :=
      silent_functionPattern_plains (by decide)
    have form : plains (Source.definition name) = plains (name ++ "(") ++ plains ").into()" := by
      simp [Source.definition]
    rw [form]
    exact (silent_call h).append behind
  notQuote := not_mem_plains (not_mem_definition h (by decide) (by decide))
  starts hhead := by
    rw [textOf_plains] at hhead
    exact not_mem_definition h (by decide) (by decide) (List.mem_of_head? hhead)
  ends c hc := by
    have last : (Source.definition name).getLast? = some ')' := by
      rw [Source.definition, List.getLast?_append]
      rfl
    rw [textOf_plains, last] at hc
    obtain rfl := Option.mem_some_iff.mp hc
    decide

/-- Brackets without loose quotes are cut in the same way wherever they stand. -/
theorem cuts_brackets {t : Text} {pre body post : List Piece}
    (h : Code.pieces 0 none t = pre ++ .plain '[' :: (body ++ .plain ']' :: post))
    (hq : .plain '\'' ∉ body) (hpost : textOf post ≠ []) :
    Cuts (.plain '[' :: (body ++ plains "]\n")) := by
  intro before rest
  have split : Code.pieces 0 none t = (pre ++ [.plain '[']) ++ (body ++ [.plain ']']) ++ post := by
    rw [h]
    simp
  have own := (isCut_append_iff.mp (isCut_of_pieces split).2.1).2
  rw [textOf_append, lastOf_append] at own
  have quotes : NoLooseQuote (body ++ [.plain ']']) := noLooseQuote_of_not_mem (by simp [hq])
  have upTo := own.exchange (y := '\n' :: rest) (by decide) quotes hpost (by simp)
  have line : IsCut (lastOf (lastOf (lastOf none (textOf pre)) (textOf [.plain '[']))
      (textOf (body ++ [.plain ']']))) [.plain '\n'] rest :=
    ⟨⟨'\n', [], rfl, first_of_seals (by decide) _⟩, trivial⟩
  have both := isCut_append_iff.mpr ⟨upTo, line⟩
  rw [List.append_assoc] at both
  exact ⟨⟨'[', [], rfl, first_of_seals (by decide) _⟩, both⟩

/-- What a list has inside its brackets can stand in a layout. -/
theorem exists_elementList {t : Text} {front : List Piece} {cores : List (List Piece)}
    (h : HasElements t (front ++ plains listHead) (plains "\n\x7d\n") ']' cores)
    (hs : ∀ es ∈ cores, Separate es) :
    ∃ d : ElementList, t = textOf (front ++ listing d.pieces) ∧ d.texts = cores.map textOf := by
  obtain ⟨lead, ss, hp, hlead, hss, rfl⟩ := h
  have separate : ∀ s ∈ ss, Separate s.core := fun s hs' => hs _ (List.mem_map_of_mem hs')
  have cuts := cuts_brackets hp (not_quote_cells hlead hss separate) (by simp [Piece.text])
  refine ⟨⟨lead, ss, hlead, hss, cuts, separate⟩, ?_, map_textOf_core ss⟩
  rw [(isCut_of_pieces (hp.trans (List.append_nil _).symm)).1]
  simp [listing, ElementList.pieces]

/-! ## Functions that become comments -/

/-- What can stand in the head of a function besides its parentheses ends no declaration. -/
theorem endFrom_plains {x : Text}
    (h : ∀ c ∈ x, opens c = false ∧ closes c = false ∧ c ≠ ',' ∧ c ≠ ';')
    (place : Nat) (rest : List Item) :
    endFrom 0 (itemsOf place (plains x) ++ rest) = endFrom 0 rest := by
  induction x generalizing place with
  | nil => rfl
  | cons c x ih =>
    obtain ⟨⟨hopen, hclose, hcomma, hsemi⟩, hx⟩ := List.forall_mem_cons.mp h
    rw [itemsOf_plains_cons, List.cons_append, endFrom]
    simp only [hcomma, hsemi, or_self, false_and, if_false, hopen, hclose, Bool.false_eq_true]
    exact ih hx _

/-- The declaration of a function reaches to the bracket that closes its body. -/
theorem IndexFunction.declarationEnd?_eq (f : IndexFunction) {t : Text} {front back : List Piece}
    (h : Code.pieces 0 none t = front ++ (f.pieces ++ back)) :
    declarationEnd? t (textOf front).length = some (.body ((textOf front).length +
      ("pub fn " ++ f.name ++ "() -> IndexDef " : Text).length + 1 + (textOf f.inner).length)) := by
  have head : ∀ c ∈ "pub fn " ++ f.name, opens c = false ∧ closes c = false ∧
      c ≠ ',' ∧ c ≠ ';' := by
    have word : ∀ c ∈ ("pub fn " : Text), opens c = false ∧ closes c = false ∧
        c ≠ ',' ∧ c ≠ ';' := by
      decide
    intro c hc
    rcases List.mem_append.mp hc with hc | hc
    · exact word c hc
    · have char := f.isIdent.chars c hc
      obtain ⟨hopen, hclose⟩ := not_bracket_of_isIdentChar char
      refine ⟨hopen, hclose, ?_, ?_⟩
      all_goals
        rintro rfl
        cases char
  have arrow : ∀ c ∈ (" -> IndexDef " : Text),
      opens c = false ∧ closes c = false ∧ c ≠ ',' ∧ c ≠ ';' := by decide
  have split : f.pieces ++ back = plains ("pub fn " ++ f.name) ++ ((Code.Part.group []).pieces ++
      (plains " -> IndexDef " ++ ((.plain '\x7b' :: f.inner) ++
        .plain '\x7d' :: (plains "\n" ++ back)))) := by
    simp [pieces, Code.Part.pieces]
  have body (place : Nat) (rest : List Item) :
      endFrom 0 (itemsOf place (.plain '\x7b' :: f.inner) ++ rest) = endFrom 1 rest := by
    have closed : level 0 ((itemsOf (place + 1) f.inner).map Item.mark) = some 0 := by
      rw [map_mark_itemsOf]
      exact f.isPaired
    exact endFrom_append closed rest
  have stop (place : Nat) (ps : List Piece) :
      endFrom 1 (itemsOf place (.plain '\x7d' :: ps)) = some (.body place) := rfl
  rw [declarationEnd?, itemsFrom_of_pieces h, split, itemsOf_append, endFrom_plains head,
    itemsOf_append, endFrom_group (show IsPaired [] from rfl), itemsOf_append, endFrom_plains arrow,
    itemsOf_append, body, stop]
  simp [Code.Part.pieces, Piece.text]
  omega

/-- The parts of a list around an element that some value is found in. -/
theorem exists_of_filterMap_eq {α β : Type} {f : α → Option β} {l : List α} {xs ys : List β} {b : β}
    (h : l.filterMap f = xs ++ b :: ys) : ∃ as a bs, l = as ++ a :: bs ∧ f a = some b ∧
      as.filterMap f = xs ∧ bs.filterMap f = ys := by
  obtain ⟨front, rest, rfl, hfront, hrest⟩ := List.filterMap_eq_append_iff.mp h
  obtain ⟨gap, a, bs, rfl, hgap, ha, hbs⟩ := List.filterMap_eq_cons_iff.mp hrest
  refine ⟨front ++ gap, a, bs, by simp, ha, ?_, hbs⟩
  rw [List.filterMap_append, hfront, List.filterMap_eq_nil_iff.mpr hgap, List.append_nil]

namespace Layout

variable {l : Layout} {as bs : List Segment} {s : Segment} {f : IndexFunction} {d : ElementList}

/-- The segment of a function that a layout has. -/
theorem exists_segment {function : Text} (h : function ∈ l.functions) :
    ∃ as s bs f, l.segments = as ++ s :: bs ∧ s.body = .function f ∧ f.name = function ∧
      (∀ a ∈ as, a.function? ≠ some f.name) ∧ l.functions =
        as.filterMap Segment.function? ++ function :: bs.filterMap Segment.function? := by
  obtain ⟨fs, gs, hsplit, hfirst⟩ := List.eq_append_cons_of_mem h
  obtain ⟨as, s, bs, hsegments, hs, rfl, rfl⟩ := exists_of_filterMap_eq hsplit
  unfold Segment.function? at hs
  split at hs
  · rename_i f hbody
    obtain rfl := Option.some.inj hs
    exact ⟨as, s, bs, f, hsegments, hbody, rfl,
      fun a ha he => hfirst (List.mem_filterMap.mpr ⟨a, ha, he⟩), hsplit⟩
  · cases hs

def withFunctions (l : Layout) (ss : List Segment) (d : ElementList) : Layout :=
  { l with segments := ss, listed := d }

theorem text_withFunctions (l : Layout) (as bs : List Segment) (s : Segment) (d : ElementList) :
    (l.withFunctions (as ++ s :: bs) d).text =
      textOf (l.upTo as) ++ (textOf s.pieces ++ (textOf (bs.flatMap Segment.pieces) ++
        textOf (listing d.pieces))) := by
  have pieces := (l.withFunctions (as ++ s :: bs) d).pieces_eq_upTo rfl
  rw [Layout.text, pieces, textOf_append, textOf_append, List.flatMap_cons, textOf_append,
    List.append_assoc]
  rfl

/-- The function of an index stands on lines of its own, which can become a gap. -/
theorem exists_commentOut (hs : l.segments = as ++ s :: bs) (hf : s.body = .function f)
    (hm : '\n' ∉ marker) : ∃ (stop : Nat) (g : GapLines),
      declarationEnd? l.text (textOf (l.upTo as ++ s.lead)).length = some (.body stop) ∧
      itemStart l.text (textOf (l.upTo as ++ s.lead)).length =
        (textOf (l.upTo as ++ s.lead)).length ∧
      (l.text.drop (textOf (l.upTo as ++ s.lead)).length).takeWhile Text.isBlank = [] ∧
      commentOut? l.text (textOf (l.upTo as ++ s.lead)).length (stop + 1) marker =
        some (l.withFunctions (as ++ { s with body := .gap g } :: bs) l.listed).text := by
  generalize hfront : l.upTo as ++ s.lead = front
  generalize hback : plains "\n" ++ (bs.flatMap Segment.pieces ++
    listing l.listed.pieces) = back
  have whole : Code.pieces 0 none l.text = front ++ (f.pieces ++ back) := by
    rw [l.pieces_text, l.pieces_eq_upTo hs, ← hfront, ← hback, List.flatMap_cons, Segment.pieces,
      Segment.bodyPieces, hf]
    simp
  -- Above it stands an empty line or a marker.
  have detached := l.detached_lead as s
  rw [hfront] at detached
  obtain ⟨u, hu⟩ : ∃ u, textOf front = u ++ '\n' :: [] := by
    obtain ⟨u, line, hline, -, -⟩ := detached
    exact ⟨u ++ '\n' :: line, by rw [hline]; simp⟩
  generalize hcode : "pub fn " ++ f.name ++ "() -> IndexDef " ++
    ('\x7b' :: (textOf f.inner ++ ['\x7d'])) = code at *
  have text : l.text = textOf front ++ (code ++ ([] ++ '\n' :: textOf back)) := by
    rw [(isCut_of_pieces whole).1, ← hcode]
    simp [IndexFunction.pieces, Piece.text]
  have start : itemStart l.text (textOf front).length = (textOf front).length := by
    rw [text]
    exact detached.itemStart _
  have noBlanks : (l.text.drop (textOf front).length).takeWhile Text.isBlank = [] := by
    rw [text, List.drop_left, ← hcode]
    rfl
  obtain ⟨indent, hindent, hout⟩ := commentOut?_append (u := u) (v := []) (w := [])
    (z := textOf back) (m := code) (by simp) (by simp) (by simp) (by simp) hm
  obtain ⟨g, hg⟩ := exists_gap (isGapText_commented hindent hm (code ++ []))
  have behind : (u ++ '\n' :: [] ++ code).length = (textOf front).length +
      ("pub fn " ++ f.name ++ "() -> IndexDef " : Text).length + 1 +
        (textOf f.inner).length + 1 := by
    rw [hu, ← hcode]
    simp only [List.length_append, List.length_cons, List.length_nil]
    omega
  rw [behind, ← hu, ← text, List.nil_append, commented, ← hg] at hout
  refine ⟨_, g, f.declarationEnd?_eq whole, start, noBlanks, hout.trans (congrArg some ?_)⟩
  have above : u ++ ['\n'] = textOf (l.upTo as) ++ textOf s.lead := by
    rw [← hu, ← hfront, textOf_append]
  have regroup : u ++ '\n' :: (textOf g.pieces ++ textOf back) =
      (u ++ ['\n']) ++ (textOf g.pieces ++ textOf back) := by simp
  rw [regroup, above, text_withFunctions, ← hback]
  simp [Segment.pieces, Segment.lead, Segment.bodyPieces]

/-- The function of an index that is removed becomes a gap, and the first element that starts with
its call is listed no longer. -/
theorem removeIndex (hs : l.segments = as ++ s :: bs) (hf : s.body = .function f)
    (hname : f.name = Source.functionOf name) (hfirst : ∀ a ∈ as, a.function? ≠ some f.name)
    (hm : '\n' ∉ marker) :
    ∃ (g : GapLines) (d : ElementList), Merge.removeIndex l.text name marker =
        .ok (l.withFunctions (as ++ { s with body := .gap g } :: bs) d).text ∧
      d.texts = l.listed.texts.eraseP fun x => decide (callOf f.name <+: x) := by
  have found := l.function?_eq_some hs hf hfirst
  obtain ⟨stop, g, hstop, start, noBlanks, hout⟩ := exists_commentOut hs hf hm
  generalize hl : l.withFunctions (as ++ { s with body := .gap g } :: bs) l.listed = l' at hout
  have listed : l'.listed = l.listed := by rw [← hl]; rfl
  have elements := hasElements_unlistDefinition l'.separable hm f.name l'.ends.inBody
    l'.listed.isLoose l'.listed.areCells
  obtain ⟨d, htext, hd⟩ := exists_elementList elements fun es hes => by
    obtain ⟨s, hs, rfl⟩ := List.mem_map.mp (List.mem_of_mem_eraseP hes)
    exact l'.listed.separate s hs
  refine ⟨g, d, ?_, ?_⟩
  · rw [Merge.removeIndex, ← hname]
    simp only [found, hstop, start, noBlanks, List.length_nil, Nat.add_zero, hout]
    rw [htext, ← hl]
    rfl
  · rw [hd, ← listed, ElementList.texts, map_textOf_core]
    exact (List.eraseP_map (f := textOf) (p := fun x => decide (callOf f.name <+: x))).symm

/-! ## Functions that are inserted -/

/-- The function of an index that is inserted stands behind the others, and is listed last. -/
theorem insertIndex (l : Layout) (hi : i.isDetectionOnly = false)
    (hnot : Source.functionOf i.name ∉ l.functions) (hm : '\n' ∉ marker) :
    ∃ (s : Segment) (d : ElementList), s.function? = some (Source.functionOf i.name) ∧
      Merge.insertIndex l.text i marker =
        .ok ((l.withFunctions (l.segments ++ [s]) d).text, true) ∧
      d.texts = l.listed.texts ++ [Source.definition (Source.functionOf i.name)] := by
  obtain ⟨f, hname, hsource⟩ := exists_indexFunction hi
  have line : ∀ m ∈ some marker, '\n' ∉ m := fun m hmem => Option.mem_some_iff.mp hmem ▸ hm
  have free := l.function?_eq_none (isIdent_functionOf i.name) (Source.functionOf_ne_model i.name)
    (functionOf_ne_aggregate i.name) hnot
  have aggregate := l.ends.function?_eq
  have start : itemStart l.text (textOf (l.upTo l.segments)).length =
      (textOf (l.upTo l.segments)).length := by
    obtain ⟨u, hu⟩ := l.exists_textOf_upTo l.segments
    rw [Layout.text, Layout.pieces, textOf_append, hu]
    exact (detached_blank u).itemStart _
  have inserted : Text.insertAt l.text (textOf (l.upTo l.segments)).length
      (markerLine [] marker ++ textOf f.pieces ++ "\n") =
        (l.withFunctions (l.segments ++ [⟨some marker, line, .function f⟩]) l.listed).text := by
    rw [text_withFunctions, Layout.text, Layout.pieces, textOf_append, Text.insertAt_append]
    simp [Segment.pieces, Segment.lead, Segment.bodyPieces, markerLine, Piece.text]
  generalize hl : l.withFunctions (l.segments ++ [⟨some marker, line, .function f⟩]) l.listed = l'
    at inserted
  have listed : l'.listed = l.listed := by rw [← hl]; rfl
  obtain ⟨t', ht', elements⟩ := exists_listDefinition l'.separable (isIdent_functionOf i.name)
    l'.ends.inBody l'.listed.isLoose l'.listed.areCells
  obtain ⟨d, htext, hd⟩ := exists_elementList elements fun es hes => by
    rcases List.mem_append.mp hes with hes | hes
    · obtain ⟨s, hs, rfl⟩ := List.mem_map.mp hes
      exact l'.listed.separate s hs
    · rw [List.mem_singleton.mp hes]
      exact separate_definition (isIdent_functionOf i.name)
  refine ⟨⟨some marker, line, .function f⟩, d, congrArg some hname, ?_, ?_⟩
  · rw [Merge.insertIndex]
    simp only [free, Option.isSome_none, Bool.false_eq_true, if_false, hsource, aggregate, start,
      inserted, ht']
    rw [htext, ← hl]
    rfl
  · rw [hd, ← listed, ElementList.texts, List.map_append, map_textOf_core]
    simp

end Layout

end SchemaDrift.Merge
