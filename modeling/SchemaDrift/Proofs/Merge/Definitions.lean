import SchemaDrift.Merge.Edit
import SchemaDrift.Proofs.Code.Body
import SchemaDrift.Proofs.Code.Function
import SchemaDrift.Proofs.Code.Lines

namespace SchemaDrift.Merge

open Code

/-!
# The list of definitions

A file ends with the function that lists the definitions. However its elements are written, the list
is found in the body of the function.
-/

variable {t name : Text} {front body : List Piece} {ss : List Cell}

/-- The head of the function that lists the definitions, up to its body. -/
def bodyHead : Text := "pub fn " ++ Source.aggregate ++ "() -> Vec<Definition> "

/-- What stands in front of the bracket of the list in its function. -/
def listHead : Text := bodyHead ++ "\x7b\n    vec!"

/-- The pieces of the function that lists the definitions, with these ones inside the brackets. -/
def listing (body : List Piece) : List Piece :=
  plains listHead ++ .plain '[' :: (body ++ .plain ']' :: plains "\n\x7d\n")

/-- The elements of the list of definitions, as they are written. -/
def definitionTexts (text : Text) : List Text :=
  match listIn? text Source.aggregate with
  | none => []
  | some (opening, closing) =>
    (entries text opening closing).map fun e => Text.slice text e.start e.stop

/-- The call of a function. -/
def callOf (function : Text) : Text := function ++ "()"

theorem definitionTexts_of_cells {pre lead post : List Piece} {close : Char}
    (h : InBody t Source.aggregate pre (lead ++ cellPieces ss) post close)
    (hlead : ∀ p ∈ lead, IsLoose p) (hcells : AreCells ss) :
    definitionTexts t = ss.map fun s => textOf s.core := by
  rw [definitionTexts, h.found]
  exact h.map_slice_entries hlead hcells

/-! ## Elements -/

theorem isIdent_aggregate : IsIdent Source.aggregate :=
  ⟨by decide, by decide, by decide, by decide⟩

theorem isIdent_model : IsIdent "model" := ⟨by decide, by decide, by decide, by decide⟩

theorem not_bracket_of_isIdentChar {c : Char} (h : Source.isIdentChar c = true) :
    opens c = false ∧ closes c = false := not_bracket_of_class (by decide) h

theorem level_of_isIdentChar {x : Text} (h : ∀ c ∈ x, Source.isIdentChar c = true) (depth : Nat) :
    level depth x = some depth := by
  induction x with
  | nil => rfl
  | cons c x ih =>
    obtain ⟨hc, hx⟩ := List.forall_mem_cons.mp h
    obtain ⟨hopen, hclose⟩ := not_bracket_of_isIdentChar hc
    simp only [level, hopen, hclose, Bool.false_eq_true, if_false]
    exact ih hx

theorem not_mem_definition (h : IsIdent name) {c : Char} (hc : Source.isIdentChar c = false)
    (hword : c ∉ ("().into()" : Text)) : c ∉ Source.definition name := by
  intro hm
  rcases List.mem_append.mp hm with hm | hm
  · rw [h.chars c hm] at hc
    cases hc
  · exact hword hm

theorem cuts_ident (h : IsIdent name) {a b : Text} (ha : ∀ c ∈ a, c ∉ ['/', '\'', '"', '#'])
    (hb : ∀ c ∈ b, c ∉ ['/', '\'', '"', '#']) (hlast : ∃ c ∈ b.getLast?, c ≠ 'r' ∧ c ≠ 'b') :
    Cuts (plains (a ++ name ++ b)) := by
  have other : ∀ c ∈ ['/', '\'', '"', '#'], Source.isIdentChar c = false := by decide
  refine cuts_plains (fun c hc hm => ?_) fun c hc => ?_
  · rcases List.mem_append.mp hc with hc | hc
    · rcases List.mem_append.mp hc with hc | hc
      · exact ha c hc hm
      · have own := h.chars c hc
        rw [other c hm] at own
        cases own
    · exact hb c hc hm
  · obtain ⟨d, hd, hne⟩ := hlast
    rw [List.getLast?_append, Option.mem_def.mp hd, Option.some_or] at hc
    rwa [← Option.mem_some_iff.mp hc]

theorem cuts_definition (h : IsIdent name) : Cuts (plains (Source.definition name)) := by
  have own := cuts_ident (a := []) h (by simp) (b := "().into()") (by decide) ⟨')', rfl, by decide⟩
  rwa [List.nil_append] at own

/-- Code without commas can be an element, if its brackets are closed and it starts and ends with no
blank. -/
theorem isCore_plains {x : Text} (hclosed : level 0 x = some 0) (hcomma : ',' ∉ x)
    (hfirst : ∀ c ∈ x.head?, Text.isBlank c = false)
    (hlast : ∃ c ∈ x.getLast?, Text.isBlank c = false) : IsCore (plains x) where
  genuine p hp := by
    obtain ⟨c, -, rfl⟩ := List.mem_map.mp hp
    trivial
  closed := by rwa [IsPaired, marks_plains]
  first p hp := by
    rw [plains, List.head?_map] at hp
    obtain ⟨c, hc, rfl⟩ := Option.map_eq_some_iff.mp hp
    rintro (hgap | he)
    · rw [IsGap, hfirst c hc] at hgap
      cases hgap
    · exact hcomma (Piece.plain.inj he ▸ List.mem_of_head? hc)
  last := by
    obtain ⟨c, hc, hblank⟩ := hlast
    obtain ⟨ys, rfl⟩ := List.getLast?_eq_some_iff.mp hc
    exact ⟨plains ys, .plain c, plains_append ys [c], by simp [IsGap, hblank]⟩
  noComma as bs hsplit := absurd (by simp [hsplit]) (not_mem_plains hcomma)

/-- The definition of a function can be an element. -/
theorem isCore_definition (h : IsIdent name) : IsCore (plains (Source.definition name)) := by
  have closed : level 0 (Source.definition name) = some 0 := by
    rw [Source.definition, level_append, level_of_isIdentChar h.chars]
    rfl
  refine isCore_plains closed (not_mem_definition h (by decide) (by decide)) (fun c hc => ?_)
    ⟨')', ?_, by decide⟩
  · rw [Source.definition, List.head?_append_of_ne_nil _ h.ne_nil] at hc
    exact isBlank_of_isIdentChar (h.chars c (List.mem_of_head? hc))
  · rw [Source.definition, List.getLast?_append]
    rfl

/-- A call of the function at the start of an element is one of its own definition. -/
theorem prefix_definition_iff {f g : Text} (hf : IsIdent f) (hg : IsIdent g) :
    callOf f <+: Source.definition g ↔ g = f := by
  constructor
  · rintro ⟨rest, hrest⟩
    have bracket : Source.isIdentChar '(' = false := by decide
    have whole : g ++ '(' :: ").into()" = f ++ '(' :: (")" ++ rest) := by
      simpa [callOf, Source.definition] using hrest.symm
    exact (append_cons_inj hg.chars hf.chars bracket bracket whole).1
  · rintro rfl
    exact ⟨".into()", by simp [callOf, Source.definition]⟩

/-! ## Finding the list -/

theorem find?_itemsOf_plains {c : Char} {x : Text} (hc : c ∉ x) (place : Nat) (rest : List Item) :
    (itemsOf place (plains x) ++ rest).find? (·.mark == c) = rest.find? (·.mark == c) := by
  induction x generalizing place with
  | nil => rfl
  | cons d x ih =>
    obtain ⟨hd, hx⟩ := not_or.mp fun hm => hc (List.mem_cons.mpr hm)
    rw [itemsOf_plains_cons, List.cons_append, List.find?_cons_of_neg, ih hx]
    simpa using Ne.symm hd

theorem findFrom_listPattern {accepts : Nat → Bool} {place : Nat} (h : accepts (place + 6) = true)
    (before : Option Char) (rest : Text) :
    findFrom listPattern accepts place 0 before ("\x7b\n    vec![" ++ rest) =
      some (place + 6, place + 11) := by
  have list (before : Option Char) : listPattern before ("vec![" ++ rest) = some rest := rfl
  have length : ('v' :: ("ec![" ++ rest)).length - rest.length = 5 := by
    simp
    omega
  have found : findFrom listPattern accepts place 0 before
      (("\x7b\n    " : Text) ++ 'v' :: ("ec![" ++ rest)) =
        some (place + ("\x7b\n    " : Text).length, place + ("\x7b\n    " : Text).length +
          (('v' :: ("ec![" ++ rest)).length - rest.length)) := by
    refine findFrom_eq_some (list _) h (fun u v s ha hv hs => ?_) (Nat.zero_le _)
    -- What stands in front of the list starts with another letter.
    obtain ⟨c, v, rfl⟩ := List.exists_cons_of_ne_nil hv
    have other : ∀ d ∈ ("\x7b\n    " : Text), 'v' ≠ d := by decide
    have start : Text.stripStart "vec!" (c :: v ++ 'v' :: ("ec![" ++ rest)) = none := by
      have first : 'v' ≠ c := other c (by rw [ha]; simp)
      change (if 'v' = c then _ else none) = none
      rw [if_neg first]
    rw [listPattern, listStart?, start] at hs
    cases hs
  rw [length] at found
  exact found

theorem not_isWord_of_beginsLine {t : Text} (h : BeginsLine t) :
    (lastOf none t).any Text.isWord = false := by
  cases hlast : t.getLast? with
  | none => simp [lastOf, hlast]
  | some c =>
    rw [h c hlast] at hlast
    rw [lastOf, hlast]
    decide

/-- Whether a text ends with the list of definitions, and no other function of its name stands in
front of it. -/
structure Ends (t : Text) (front body : List Piece) : Prop where
  pieces_eq : pieces 0 none t = front ++ listing body
  silent : Silent (functionPattern Source.aggregate) front
  begins : BeginsLine (textOf front)
  isPaired : IsPaired body

namespace Ends

variable (h : Ends t front body)
include h

theorem function?_eq : function? t Source.aggregate = some (textOf front).length := by
  have head : listing body = plains ("pub fn " ++ Source.aggregate ++ "() ->") ++
      (plains " Vec<Definition> \x7b\n    vec!" ++
        .plain '[' :: (body ++ .plain ']' :: plains "\n\x7d\n")) := by
    rw [← List.append_assoc, ← plains_append]
    rfl
  have whole := h.pieces_eq
  rw [head] at whole
  exact function?_eq_some isIdent_aggregate whole h.silent (not_isWord_of_beginsLine h.begins)

theorem pieces_body : pieces 0 none t = (front ++ plains bodyHead) ++ .plain '\x7b' ::
    ((plains "\n    vec![" ++ (body ++ plains "]\n")) ++ .plain '\x7d' :: plains "\n") := by
  have braces : listing body = plains bodyHead ++ .plain '\x7b' ::
      ((plains "\n    vec![" ++ (body ++ plains "]\n")) ++ .plain '\x7d' :: plains "\n") := by
    unfold listing listHead
    rw [plains_append]
    simp
  rw [h.pieces_eq, braces, ← List.append_assoc]

/-- The body of the function begins with the first brace. -/
theorem find?_body : (itemsFrom t (textOf front).length).find? (·.mark == '\x7b') =
    some ⟨(textOf (front ++ plains bodyHead)).length,
      (textOf (front ++ plains bodyHead)).length + 1, '\x7b'⟩ := by
  have none : '\x7b' ∉ bodyHead := by decide
  have whole := h.pieces_body
  rw [List.append_assoc] at whole
  rw [itemsFrom_of_pieces whole, itemsOf_append, find?_itemsOf_plains none, textOf_append,
    List.length_append]
  simp [itemsOf, Piece.mark?, Piece.text]

theorem matchingClose?_body : matchingClose? t (textOf (front ++ plains bodyHead)).length =
    some ((textOf (front ++ plains bodyHead)).length + 1 +
      (textOf (plains "\n    vec![" ++ (body ++ plains "]\n"))).length) := by
  have paired : IsPaired (plains "\n    vec![" ++ (body ++ plains "]\n")) := by
    have opening : level 0 ("\n    vec![" : Text) = some 1 := by decide
    have inside : level 1 (marks body) = some 1 := level_add h.isPaired 1
    rw [IsPaired, marks_append, marks_append, marks_plains, marks_plains, level_append, opening,
      Option.bind_some, level_append, inside]
    rfl
  exact matchingClose?_of_pieces h.pieces_body (by decide) (by decide) paired

theorem find?_list : find? listPattern t (textOf (front ++ plains bodyHead)).length =
    some ((textOf (front ++ plains bodyHead)).length + 6,
      (textOf (front ++ plains bodyHead)).length + 11) := by
  have drop : t.drop (textOf (front ++ plains bodyHead)).length =
      "\x7b\n    vec![" ++ (textOf body ++ "]\n\x7d\n") := by
    rw [(isCut_of_pieces h.pieces_body).1, List.drop_left]
    simp [Piece.text]
  have code : isCode t ((textOf (front ++ plains bodyHead)).length + 6) = true := by
    have place : pieces 0 none t = (front ++ plains (bodyHead ++ "\x7b\n    ")) ++ .plain 'v' ::
        (plains "ec![" ++ (body ++ plains "]\n\x7d\n")) := by
      rw [h.pieces_body]
      simp
    have own := isCode_of_pieces place rfl
    have length : (textOf (front ++ plains (bodyHead ++ "\x7b\n    "))).length =
        (textOf (front ++ plains bodyHead)).length + 6 := by
      rw [plains_append, ← List.append_assoc, textOf_append _ (plains _), textOf_plains,
        List.length_append]
      rfl
    rwa [length] at own
  rw [find?, drop]
  exact findFrom_listPattern code _ _

/-- The list is found in the body of its function. -/
theorem inBody : InBody t Source.aggregate (front ++ plains listHead) body (plains "\n\x7d\n")
    ']' where
  pieces_eq := by
    rw [h.pieces_eq, listing]
    simp
  isPaired := h.isPaired
  closes := by decide
  found := by
    have list : pieces 0 none t = (front ++ plains listHead) ++
        .plain '[' :: (body ++ .plain ']' :: plains "\n\x7d\n") := by
      rw [h.pieces_eq, listing, List.append_assoc]
    have bracket := matchingClose?_of_pieces list (by decide) (by decide) h.isPaired
    have opening : (textOf (front ++ plains listHead)).length =
        (textOf (front ++ plains bodyHead)).length + 10 := by
      rw [listHead, plains_append, ← List.append_assoc, textOf_append _ (plains _), textOf_plains,
        List.length_append]
      rfl
    have inside : (textOf (front ++ plains bodyHead)).length + 11 ≤
        (textOf (front ++ plains bodyHead)).length + 1 +
          (textOf (plains "\n    vec![" ++ (body ++ plains "]\n"))).length := by
      have word : ("\n    vec![" : Text).length = 10 := by decide
      rw [textOf_append (plains "\n    vec!["), textOf_plains, List.length_append, word]
      omega
    have place : (textOf (front ++ plains bodyHead)).length + 11 - 1 =
        (textOf (front ++ plains listHead)).length := by omega
    simp only [listIn?, h.function?_eq, Option.bind_eq_bind, Option.bind_some, h.find?_body,
      h.matchingClose?_body, h.find?_list, Option.filter_some, decide_eq_true_eq.mpr inside,
      if_true, brackets?, place, bracket, Option.map_some]

/-- The head of the function ends in front of the list. -/
theorem close_mem_head {start opening closing : Nat}
    (hstart : function? t Source.aggregate = some start)
    (hlist : listIn? t Source.aggregate = some (opening, closing)) :
    ')' ∈ Text.slice t start opening := by
  obtain rfl := Option.some.inj (h.function?_eq.symm.trans hstart)
  obtain ⟨rfl, -⟩ := Prod.mk.inj (Option.some.inj (h.inBody.found.symm.trans hlist))
  have text : t = textOf front ++ (listHead ++ textOf (.plain '[' :: (body ++ .plain ']' ::
      plains "\n\x7d\n"))) := by
    conv_lhs => rw [(isCut_of_pieces h.inBody.pieces_eq).1]
    rw [textOf_append, textOf_plains, List.append_assoc]
  have inside : Text.slice t (textOf front).length (textOf (front ++ plains listHead)).length =
      listHead := by
    rw [text, textOf_append, textOf_plains, Text.slice_append]
  rw [inside]
  decide

end Ends

end SchemaDrift.Merge
