import Mathlib.Logic.Relation
import SchemaDrift.Proofs.Code.LineEnds
import SchemaDrift.Proofs.Code.Place
import SchemaDrift.Proofs.Merge.Accounting

namespace SchemaDrift.Merge

open Code

/-!
# Merges that only add

Unless it comments out an index, a merge only puts pieces into a text: markers, entries, functions,
elements of the list of definitions, commas, the slashes of comments and the end of the last line.
What was there before remains, in the same order.
-/

variable {markers : Markers} {database code : Table} {o : Outcome} {c : Change}
  {a b t t' indent comma piece name marker : Text}

/-! ## Pieces -/

def IsIndentation (t : Text) : Prop := ∀ c ∈ t, Text.isIndent c = true

def IsComma (t : Text) : Prop := t = [] ∨ t = ","

/-- The pieces that are put on lines of their own. -/
inductive LinePiece (markers : Markers) (database : Table) : Text → Prop
  | marker {indent marker : Text} (hindent : IsIndentation indent)
      (hmarker : marker = markers.added ∨ marker = markers.removed) :
      LinePiece markers database (markerLine indent marker)
  | entry {indent comma : Text} {f : Field} (hf : f ∈ database.fields)
      (hindent : IsIndentation indent) (hcomma : IsComma comma) :
      LinePiece markers database
        (Source.entry indent f.name (Declaration.ofField database f) ++ comma ++ "\n")
  | function {source : Text} {i : Index} (hi : i ∈ database.indexes)
      (hsource : Source.indexFunction? i = some source) :
      LinePiece markers database (source ++ "\n")
  | item {indent comma : Text} {i : Index} (hi : i ∈ database.indexes)
      (hindent : IsIndentation indent) (hcomma : IsComma comma) :
      LinePiece markers database
        (indent ++ Source.definition (Source.functionOf i.name) ++ comma ++ "\n")

/-- The pieces that are put inside a line. An entry is put on a line of its own there, with what
follows it on the next one. -/
inductive InnerPiece (database : Table) : Text → Prop
  | entry {indent comma next : Text} {f : Field} (hf : f ∈ database.fields)
      (hindent : IsIndentation indent) (hcomma : IsComma comma) (hnext : IsIndentation next) :
      InnerPiece database
        ("\n" ++ (Source.entry indent f.name (Declaration.ofField database f) ++ comma ++ "\n") ++
          next)
  | onlyItem {i : Index} (hi : i ∈ database.indexes) :
      InnerPiece database (Source.definition (Source.functionOf i.name))
  | itemAfterComma {i : Index} (hi : i ∈ database.indexes) :
      InnerPiece database (" " ++ Source.definition (Source.functionOf i.name) ++ ",")
  | itemWithComma {i : Index} (hi : i ∈ database.indexes) :
      InnerPiece database (", " ++ Source.definition (Source.functionOf i.name))

/-- Whether the second text is the first one with one piece put into it. -/
inductive Adds (markers : Markers) (database : Table) : Text → Text → Prop
  | line {a b piece : Text} (hline : BeginsLine a) (hpiece : LinePiece markers database piece) :
      Adds markers database (a ++ b) (a ++ (piece ++ b))
  | inner {a b piece : Text} (hpiece : InnerPiece database piece) :
      Adds markers database (a ++ b) (a ++ (piece ++ b))
  /-- The slashes of a comment, behind the indentation of a line. -/
  | comment {a b indent : Text} (hline : BeginsLine a) (hindent : IsIndentation indent)
      (hcode : ∀ c ∈ b.head?, Text.isIndent c = false) :
      Adds markers database (a ++ (indent ++ b)) (a ++ (indent ++ ("// " ++ b)))
  /-- The comma behind the last element of a list. -/
  | comma {t : Text} {opening closing : Nat} {e : Entry}
      (hclose : matchingClose? t opening = some closing)
      (hlast : (entries t opening closing).getLast? = some e) (hcomma : e.comma = none) :
      Adds markers database t (Text.insertAt t e.stop ",")
  /-- A function behind everything else. -/
  | function {t source : Text} {i : Index} (hline : BeginsLine t) (hi : i ∈ database.indexes)
      (hsource : Source.indexFunction? i = some source) :
      Adds markers database t (t ++ ("\n" ++ source))
  | newline {t : Text} (hline : t.getLast? ≠ some '\n') : Adds markers database t (t ++ "\n")

/-- Whether the second text is the first one with pieces put into it, one after the other. -/
abbrev AddsAll (markers : Markers) (database : Table) : Text → Text → Prop :=
  Relation.ReflTransGen (Adds markers database)

theorem Adds.sublist (h : Adds markers database t t') : t.Sublist t' := by
  have put (a b piece : Text) : (a ++ b).Sublist (a ++ (piece ++ b)) :=
    (List.sublist_append_right piece b).append_left a
  cases h with
  | line _ _ => exact put _ _ _
  | inner _ => exact put _ _ _
  | comment _ _ _ => exact (put _ _ _).append_left _
  | @comma _ _ _ e _ _ _ =>
    have inserted := put (t.take e.stop) (t.drop e.stop) ","
    rwa [List.take_append_drop] at inserted
  | function _ _ _ => exact List.sublist_append_left _ _
  | newline _ => exact List.sublist_append_left _ _

theorem LinePiece.ne_nil (h : LinePiece markers database piece) : piece ≠ [] := by
  cases h <;> simp [markerLine]

theorem InnerPiece.ne_nil (h : InnerPiece database piece) : piece ≠ [] := by
  cases h <;> simp [Source.definition]

/-- Every piece makes the text longer. -/
theorem Adds.length_lt (h : Adds markers database t t') : t.length < t'.length := by
  have put (a b : Text) (piece : Text) (hp : piece ≠ []) :
      (a ++ b).length < (a ++ (piece ++ b)).length := by
    have filled := List.length_pos_of_ne_nil hp
    simp only [List.length_append]
    omega
  cases h with
  | line _ hpiece => exact put _ _ _ hpiece.ne_nil
  | inner hpiece => exact put _ _ _ hpiece.ne_nil
  | @comment a b indent _ _ _ =>
    have inner := put (a ++ indent) b "// " (by decide)
    simpa only [List.append_assoc] using inner
  | @comma _ _ _ e _ _ _ =>
    have inserted := put (t.take e.stop) (t.drop e.stop) "," (by decide)
    rwa [List.take_append_drop] at inserted
  | function _ _ _ => simp
  | newline _ => simp

theorem length_lt_of_transGen (h : Relation.TransGen (Adds markers database) t t') :
    t.length < t'.length := by
  induction h with
  | single hstep => exact hstep.length_lt
  | tail _ hstep ih => exact ih.trans hstep.length_lt

theorem AddsAll.sublist (h : AddsAll markers database t t') : t.Sublist t' := by
  induction h with
  | refl => exact List.Sublist.refl t
  | tail _ hstep ih => exact ih.trans hstep.sublist

theorem isIndentation_indentation (t : Text) (place : Nat) :
    IsIndentation (indentation t place) := fun _ hc => List.mem_takeWhile_imp hc

theorem isIndentation_entryIndent (t : Text) (opening closing : Nat) (es : List Entry) :
    IsIndentation (entryIndent t opening closing es) := by
  have step : IsIndentation "    " := by unfold IsIndentation; decide
  unfold entryIndent
  split
  · exact isIndentation_indentation t _
  · exact List.forall_mem_append.mpr ⟨isIndentation_indentation t _, step⟩

/-- A piece on a line of its own, with a marker above it. -/
theorem addsAll_marked (hline : BeginsLine a) (hindent : IsIndentation indent)
    (hpiece : LinePiece markers database piece) (b : Text) :
    AddsAll markers database (a ++ b)
      (a ++ (markerLine indent markers.added ++ piece ++ b)) := by
  have marked : Adds markers database (a ++ (piece ++ b))
      (a ++ (markerLine indent markers.added ++ (piece ++ b))) :=
    .line hline (.marker hindent (.inl rfl))
  rw [List.append_assoc]
  exact .tail (.single (.line hline hpiece)) marked

/-! ## Lines that become comments -/

theorem addsAll_commentLine (hline : BeginsLine a) (l z : Text) :
    AddsAll markers database (a ++ (l ++ z)) (a ++ (commentLine l ++ z)) := by
  unfold commentLine
  simp only
  split
  · exact .refl
  · rename_i hcode
    obtain ⟨c, code, hc⟩ :=
      List.exists_cons_of_ne_nil (l := l.dropWhile Text.isIndent) fun hnil => by
      rw [hnil] at hcode
      exact hcode rfl
    have first : Text.isIndent c = false := by
      have stops := List.head?_dropWhile_not Text.isIndent l
      rw [hc] at stops
      exact stops
    have indents : IsIndentation (l.takeWhile Text.isIndent) := fun d hd =>
      List.mem_takeWhile_imp hd
    have adds : Adds markers database (a ++ (l.takeWhile Text.isIndent ++ (c :: code ++ z)))
        (a ++ (l.takeWhile Text.isIndent ++ ("// " ++ (c :: code ++ z)))) :=
      .comment hline indents (by simpa using first)
    have whole : l.takeWhile Text.isIndent ++ (c :: code ++ z) = l ++ z := by
      rw [← hc, ← List.append_assoc, List.takeWhile_append_dropWhile]
    rw [whole] at adds
    refine .single ?_
    rw [hc]
    simpa using adds

theorem addsAll_lines (hline : BeginsLine a) (m z : Text) :
    AddsAll markers database (a ++ (m ++ z))
      (a ++ ((Text.lines m).flatMap commentLine ++ z)) := by
  induction hn : m.length using Nat.strongRecOn generalizing a m with
  | ind n ih =>
    rcases first_line m with hm | ⟨w, rest, rfl, hw⟩
    · cases m with
      | nil => exact .refl
      | cons c m =>
        rw [lines_of_not_mem hm (by simp), List.flatMap_singleton]
        exact addsAll_commentLine hline _ z
    · rw [lines_append hw, List.flatMap_cons]
      have first : AddsAll markers database (a ++ (w ++ ['\n'] ++ (rest ++ z)))
          (a ++ (commentLine (w ++ ['\n']) ++ (rest ++ z))) := addsAll_commentLine hline _ _
      have begins : BeginsLine (a ++ commentLine (w ++ ['\n'])) := by
        obtain ⟨gs, htext, -, -⟩ := isGapText_commentLine hw
        rw [← htext, textOf_append, ← List.append_assoc]
        exact beginsLine_newline _
      have others := ih _ (by simp at hn; omega) begins rest rfl
      simp only [List.append_assoc, List.cons_append, List.nil_append] at first others ⊢
      exact first.trans others

theorem addsAll_endLine (t : Text) : AddsAll markers database t (endLine t) := by
  rw [endLine]
  split
  · exact .refl
  · exact .single (.newline ‹_›)

/-- A span of lines that is turned into comments. -/
theorem adds_commentOut? {start stop : Nat} (hle : start ≤ stop) (hstop : stop ≤ t.length)
    (hmarker : marker = markers.added ∨ marker = markers.removed)
    (h : commentOut? t start stop marker = some t') :
    Relation.TransGen (Adds markers database) t t' := by
  obtain ⟨-, -, rfl⟩ := commentOut?_eq_some_iff.mp h
  have begins := beginsLine_take_lineStart (hle.trans hstop)
  have indents := isIndentation_indentation t start
  have ends := breaks_lineEnd hstop
  generalize indentation t start = indent at indents ⊢
  have upTo : lineStart t start ≤ lineEnd t stop :=
    (lineStart_le t start).trans (hle.trans (le_lineEnd hstop))
  obtain ⟨a, m, b, rfl, ha, hm⟩ := exists_cut_at upTo (lineEnd_le_length t hstop)
  rw [← hm, ← List.append_assoc, List.take_left, List.drop_left] at ends
  rw [← ha, List.take_left] at begins
  rw [← ha, ← hm, Text.slice_append, Text.replaceSpan_append]
  -- First the slashes of the comments, and then the marker above them.
  have lines : AddsAll markers database (a ++ (m ++ b))
      (a ++ ((Text.lines m).flatMap commentLine ++ b)) := addsAll_lines begins m b
  have marked : Relation.TransGen (Adds markers database) (a ++ (m ++ b))
      (a ++ (markerLine indent marker ++ ((Text.lines m).flatMap commentLine ++ b))) :=
    .tail' lines (.line begins (.marker indents hmarker))
  rw [← List.append_assoc (markerLine indent marker)] at marked
  rcases ends.of_append with ends | rfl
  · have ended : endLine (markerLine indent marker ++ (Text.lines m).flatMap commentLine) =
        markerLine indent marker ++ (Text.lines m).flatMap commentLine := by
      rw [endLine_commentLines indent marker (by rwa [Text.flatten_lines]), List.flatten_cons,
        List.flatMap_def]
    rwa [ended]
  · -- The span ends with the text.
    simp only [List.append_nil] at marked ⊢
    rw [← endLine_append (by simp [markerLine])]
    exact marked.trans_left (addsAll_endLine _)

/-! ## Edits -/

/-- An entry with a name starts with a bracket. -/
theorem getElem?_of_entryName? {start stop : Nat} {n : Text}
    (h : entryName? (Text.slice t start stop) = some n) : t[start]? = some '(' := by
  obtain ⟨rest, hrest, -⟩ := Option.bind_eq_some_iff.mp h
  have first := congrArg List.head? (Text.stripStart_eq_some_iff.mp hrest)
  rw [Text.slice, List.head?_drop, List.getElem?_take] at first
  split at first
  · exact first
  · cases first

/-- A declaration that starts with a bracket ends behind it. -/
theorem bounds_of_declarationEnd? {start : Nat} {stop : End}
    (hbracket : t[start]? = some '(') (h : declarationEnd? t start = some stop) :
    start ≤ stop.after t ∧ stop.after t ≤ t.length := by
  obtain ⟨i, hi, hend⟩ := exists_mem_of_endFrom h
  obtain ⟨hi, hle⟩ := mem_items_of_mem_itemsFrom hi
  have inside := (start_lt_stop hi).trans_le (stop_le_length hi)
  rcases hend with rfl | rfl | ⟨rfl, hclose⟩
  · exact ⟨hle.trans (Nat.le_succ _), inside⟩
  · exact ⟨hle.trans (Nat.le_succ _), inside⟩
  · -- The bracket that closes the block is not the one that the declaration starts with.
    have quotes : ∀ c ∈ ['"', '\''], closes c = false := by decide
    have mark := getElem?_start hi fun hq => by
      rw [quotes _ hq] at hclose
      cases hclose
    have later : start < i.start := by
      refine lt_of_le_of_ne hle fun he => ?_
      rw [← he, hbracket] at mark
      rw [← Option.some.inj mark] at hclose
      cases hclose
    obtain ⟨s, hs⟩ : ∃ s, t.take i.start = t.take start ++ '(' :: s := by
      obtain ⟨lt, hget⟩ := List.getElem?_eq_some_iff.mp hbracket
      refine ⟨(t.take i.start).drop (start + 1), ?_⟩
      have split := List.take_append_drop start (t.take i.start)
      rw [List.take_take, Nat.min_eq_left hle, List.drop_eq_getElem_cons (by simp; omega),
        List.getElem_take, hget] at split
      exact split.symm
    obtain ⟨m, r, rfl, -, htrim⟩ := Text.exists_trimEnd_append
      (show Text.isBlank '(' = false by decide) (t.take start) s
    have short := congrArg List.length hs
    rw [End.after, hs, htrim]
    simp only [List.length_append, List.length_cons, List.length_take] at short ⊢
    omega

theorem adds_removeField (hm : marker = markers.added ∨ marker = markers.removed)
    (h : removeField t name marker = .ok t') : Relation.TransGen (Adds markers database) t t' := by
  obtain ⟨opening, closing, e, stop, -, hfind, hstop, hout⟩ := exists_of_removeField h
  have named := List.find?_some hfind
  rw [isNamed, beq_iff_eq, Option.map_eq_some_iff] at named
  obtain ⟨n, hn, -⟩ := named
  obtain ⟨hle, hlength⟩ := bounds_of_declarationEnd? (getElem?_of_entryName? hn) hstop
  exact adds_commentOut? hle hlength hm hout

/-- What is put behind the last element of a list is put there before or after its comma. -/
theorem closeLast_append {es : List Entry}
    (h : ∀ e ∈ es.getLast?, e.comma = none → e.stop ≤ a.length) (b : Text) :
    closeLast es (a ++ b) = closeLast es a ++ b := by
  unfold closeLast
  split
  · rename_i start stop hlast
    have le : stop ≤ a.length := h _ hlast rfl
    simp only [Text.insertAt, List.take_append_of_le_length le, List.drop_append_of_le_length le,
      List.append_assoc]
  · rfl

theorem beginsLine_closeLast {es : List Entry} (hline : BeginsLine a)
    (h : ∀ e ∈ es.getLast?, e.comma = none → e.stop < a.length) : BeginsLine (closeLast es a) := by
  unfold closeLast
  split
  · rename_i start stop hlast
    have lt : stop < a.length := h _ hlast rfl
    have rest : a.drop stop ≠ [] := by simpa using lt
    rw [← List.take_append_drop stop a, beginsLine_append rest] at hline
    rw [Text.insertAt, ← List.append_assoc]
    exact (beginsLine_append rest).mpr hline
  · exact hline

section List

variable {opening closing : Nat} (hclose : matchingClose? t opening = some closing)
include hclose

theorem addsAll_closeLast : AddsAll markers database t
    (closeLast (entries t opening closing) t) := by
  unfold closeLast
  split
  · rename_i start stop hlast
    exact .single (.comma hclose hlast rfl)
  · exact .refl

theorem stop_of_mem_getLast? : ∀ e ∈ (entries t opening closing).getLast?,
    e.stop ≤ closing ∧ (startsLine t closing = true → e.stop < lineStart t closing) := by
  intro e he
  obtain ⟨hle, hlt, hpos, d, hd, hb⟩ := stop_of_mem_entries hclose (List.mem_of_getLast? he)
  refine ⟨hle, fun hstarts => ?_⟩
  have above := lt_lineStart hstarts hlt.le (by omega) hd hb
  omega

/-- A piece on a line of its own in front of the bracket of a list. -/
theorem addsAll_closeLast_line (hstarts : startsLine t closing = true) {s : Text}
    (hs : ∀ a b, BeginsLine a → AddsAll markers database (a ++ b) (a ++ (s ++ b))) :
    AddsAll markers database t (closeLast (entries t opening closing)
      (Text.insertAt t (lineStart t closing) s)) := by
  obtain ⟨j, hj, rfl, -⟩ := exists_of_matchingClose? hclose
  have inside : j.start ≤ t.length := (start_lt_stop hj).le.trans (stop_le_length hj)
  have length : (t.take (lineStart t j.start)).length = lineStart t j.start :=
    List.length_take_of_le ((lineStart_le t _).trans inside)
  have above (e : Entry) (he : e ∈ (entries t opening j.start).getLast?) (_ : e.comma = none) :
      e.stop < (t.take (lineStart t j.start)).length := by
    rw [length]
    exact (stop_of_mem_getLast? hclose e he).2 hstarts
  have begins := beginsLine_closeLast (beginsLine_take_lineStart inside) above
  have closed : AddsAll markers database t (closeLast (entries t opening j.start) t) :=
    addsAll_closeLast hclose
  have split := closeLast_append (fun e he hn => (above e he hn).le) (t.drop (lineStart t j.start))
  rw [List.take_append_drop] at split
  rw [Text.insertAt, closeLast_append fun e he hn => (above e he hn).le]
  rw [split] at closed
  exact closed.trans (hs _ _ begins)

/-- A piece in front of the bracket of a list. -/
theorem addsAll_closeLast_inner {s : Text}
    (hs : ∀ a b, AddsAll markers database (a ++ b) (a ++ (s ++ b))) :
    AddsAll markers database t (closeLast (entries t opening closing)
      (Text.insertAt t closing s)) := by
  obtain ⟨j, hj, rfl, -⟩ := exists_of_matchingClose? hclose
  have length : (t.take j.start).length = j.start :=
    List.length_take_of_le ((start_lt_stop hj).le.trans (stop_le_length hj))
  have above (e : Entry) (he : e ∈ (entries t opening j.start).getLast?) (_ : e.comma = none) :
      e.stop ≤ (t.take j.start).length := by
    rw [length]
    exact (stop_of_mem_getLast? hclose e he).1
  have closed : AddsAll markers database t (closeLast (entries t opening j.start) t) :=
    addsAll_closeLast hclose
  have split := closeLast_append above (t.drop j.start)
  rw [List.take_append_drop] at split
  rw [Text.insertAt, closeLast_append above]
  rw [split] at closed
  exact closed.trans (hs _ _)

end List

theorem isComma_lastIsOpen (es : List Entry) : IsComma (if lastIsOpen es then [] else ",") := by
  split
  · exact .inl rfl
  · exact .inr rfl

theorem exists_of_brackets? {found : Nat × Nat} {opening closing : Nat}
    (h : brackets? t found = some (opening, closing)) :
    matchingClose? t opening = some closing := by
  obtain ⟨place, hplace, he⟩ := Option.map_eq_some_iff.mp h
  cases he
  exact hplace

theorem addsAll_insertField {f : Field} (hf : f ∈ database.fields)
    (h : insertField t database f markers.added = .ok t') : AddsAll markers database t t' := by
  unfold insertField at h
  split at h
  · cases h
  · rename_i opening closing hlist
    cases h
    obtain ⟨found, -, hbrackets⟩ := Option.bind_eq_some_iff.mp hlist
    have close := exists_of_brackets? hbrackets
    have indents := isIndentation_entryIndent t opening closing (entries t opening closing)
    have comma := isComma_lastIsOpen (entries t opening closing)
    generalize entryIndent t opening closing (entries t opening closing) = indent at indents ⊢
    generalize (if lastIsOpen (entries t opening closing) then [] else "," : Text) =
      comma' at comma ⊢
    split
    · rename_i hstarts
      refine addsAll_closeLast_line close hstarts fun a b hline => ?_
      have piece : LinePiece markers database _ := .entry hf indents comma
      have marked := addsAll_marked hline indents piece b
      simpa only [List.append_assoc] using marked
    · refine addsAll_closeLast_inner close fun a b => ?_
      have piece : InnerPiece database _ :=
        .entry hf indents comma (isIndentation_indentation t closing)
      have entry : Adds markers database (a ++ b) (a ++ (_ ++ b)) := .inner piece
      have marked (b : Text) : Adds markers database (a ++ "\n" ++ b)
          (a ++ "\n" ++ (markerLine indent markers.added ++ b)) :=
        .line (beginsLine_newline a) (.marker indents (.inl rfl))
      refine .tail (.single entry) ?_
      simpa only [List.append_assoc] using marked (Source.entry indent f.name
        (Declaration.ofField database f) ++ comma' ++ "\n" ++ indentation t closing ++ b)

/-! ## Functions of indexes -/

theorem le_length_of_function? {place : Nat} (h : function? t name = some place) :
    place ≤ t.length := by
  obtain ⟨found, hfound, rfl⟩ := Option.map_eq_some_iff.mp h
  obtain ⟨i, hi, hstart⟩ := List.any_eq_true.mp (exists_of_findFrom hfound).1
  rw [← eq_of_beq hstart]
  exact (start_lt_stop hi).le.trans (stop_le_length hi)

theorem addsAll_listDefinition? {i : Index} (hi : i ∈ database.indexes)
    (h : listDefinition? t (Source.functionOf i.name) = some t') :
    AddsAll markers database t t' := by
  obtain ⟨⟨opening, closing⟩, hlist, hrest⟩ := Option.bind_eq_some_iff.mp h
  have close : matchingClose? t opening = some closing := by
    obtain ⟨start, -, hbody⟩ := Option.bind_eq_some_iff.mp hlist
    obtain ⟨body, -, hbody⟩ := Option.bind_eq_some_iff.mp hbody
    obtain ⟨stop, -, hbody⟩ := Option.bind_eq_some_iff.mp hbody
    obtain ⟨found, -, hbrackets⟩ := Option.bind_eq_some_iff.mp hbody
    exact exists_of_brackets? hbrackets
  have inner (place : Nat) {piece : Text} (hpiece : InnerPiece database piece) :
      AddsAll markers database t (Text.insertAt t place piece) := by
    have adds : Adds markers database (t.take place ++ t.drop place)
        (t.take place ++ (piece ++ t.drop place)) := .inner hpiece
    rw [List.take_append_drop] at adds
    exact .single adds
  dsimp only at hrest
  split at hrest
  · cases hrest
    exact inner closing (.onlyItem hi)
  · rename_i last hlast
    split at hrest
    · rename_i hstarts
      cases hrest
      exact addsAll_closeLast_line close hstarts fun a b hline => .single <|
        .line hline (.item hi (isIndentation_indentation t _) (isComma_lastIsOpen _))
    · split at hrest
      · cases hrest
        exact inner _ (.itemAfterComma hi)
      · cases hrest
        exact inner _ (.itemWithComma hi)

theorem addsAll_insertIndex {i : Index} {listed : Bool} (hi : i ∈ database.indexes)
    (h : insertIndex t i markers.added = .ok (t', listed)) : AddsAll markers database t t' := by
  have noIndent : IsIndentation [] := nofun
  unfold insertIndex at h
  dsimp only at h
  split at h
  · cases h
  · split at h
    · cases h
    · rename_i source hsource
      split at h
      · cases h
        have ended : AddsAll markers database t (endLine t) := addsAll_endLine t
        have function : Adds markers database (endLine t) (endLine t ++ ("\n" ++ source)) :=
          .function (beginsLine_endLine t) hi hsource
        have marked : Adds markers database (endLine t ++ ['\n'] ++ source)
            (endLine t ++ ['\n'] ++ (markerLine [] markers.added ++ source)) :=
          .line (beginsLine_newline (endLine t)) (.marker noIndent (.inl rfl))
        simp only [List.append_assoc] at function marked ⊢
        exact (ended.tail function).tail marked
      · rename_i place hplace
        have begins := beginsLine_take_itemStart (le_length_of_function? hplace)
        have inserted : AddsAll markers database t (Text.insertAt t (itemStart t place)
            (markerLine [] markers.added ++ source ++ "\n")) := by
          have piece : LinePiece markers database _ := .function hi hsource
          have marked := addsAll_marked begins noIndent piece (t.drop (itemStart t place))
          rw [List.take_append_drop] at marked
          simpa only [Text.insertAt, List.append_assoc] using marked
        split at h
        · rename_i hlisted
          cases h
          exact inserted.trans (addsAll_listDefinition? hi hlisted)
        · cases h
          exact inserted

/-! ## Merges -/

/-- A step that comments out no index only adds. -/
theorem addsAll_removeStep (roots : List Text) (o : Outcome) (c : Change)
    (h : (removeStep markers roots o c).removedIndexes = []) :
    AddsAll markers database o.text (removeStep markers roots o c).text := by
  unfold removeStep at h ⊢
  split
  · unfold takeField
    split
    · split
      · rename_i hremoved
        exact (adds_removeField (.inr rfl) hremoved).to_reflTransGen
      · exact .refl
    · rw [text_passOver]
  · rename_i hkind hindex
    simp only [hkind, hindex] at h
    unfold takeIndex at h ⊢
    split
    · rename_i hremoved
      rw [hremoved] at h
      simp at h
    · exact .refl
  · exact .refl

theorem addsAll_addStep (roots : List Text) (o : Outcome) (c : Change) :
    AddsAll markers database o.text (addStep markers roots database o c).text := by
  unfold addStep
  split
  · split
    · rename_i hf
      obtain ⟨name, -, hf⟩ := Option.bind_eq_some_iff.mp hf
      unfold putField
      split
      · split
        · rename_i hinserted
          exact addsAll_insertField (List.mem_of_find?_eq_some hf) hinserted
        · exact .refl
      · rw [text_passOver]
    · exact .refl
  · split
    · rename_i hi
      obtain ⟨name, -, hi⟩ := Option.bind_eq_some_iff.mp hi
      unfold putIndex
      split
      · exact .refl
      · split
        · rename_i hinserted
          have adds := addsAll_insertIndex (List.mem_of_find?_eq_some hi) hinserted
          dsimp only
          split
          · exact adds
          · exact adds
        · exact .refl
    · exact .refl
  all_goals exact .refl

theorem removedIndexes_eq_nil {o o' : Outcome} (h : Outcome.Grows o o')
    (hnone : o'.removedIndexes = []) : o.removedIndexes = [] := by
  refine List.eq_nil_iff_forall_not_mem.mpr fun name hname => ?_
  have grown := h.removed (List.mem_append_right _ (List.mem_map_of_mem hname))
  rw [Outcome.removed, hnone] at grown
  simp at grown

theorem addsAll_foldl {step : Outcome → Change → Outcome}
    (hgrows : ∀ o c, Outcome.Grows o (step o c))
    (hstep : ∀ o c, (step o c).removedIndexes = [] →
      AddsAll markers database o.text (step o c).text)
    (cs : List Change) (o : Outcome) (h : (cs.foldl step o).removedIndexes = []) :
    AddsAll markers database o.text (cs.foldl step o).text := by
  induction cs generalizing o with
  | nil => exact .refl
  | cons c cs ih =>
    have rest := Outcome.Grows.foldl hgrows cs (step o c)
    exact (hstep o c (removedIndexes_eq_nil rest h)).trans (ih (step o c) h)

/-- A merge that comments out no index takes nothing away: pieces are put into the text, one after
the other, and what was there before remains in the same order. -/
theorem addsAll_merge (h : (merge markers t database code).removedIndexes = []) :
    AddsAll markers database t (merge markers t database code).text ∧
      t.Sublist (merge markers t database code).text := by
  have whole : AddsAll markers database t (merge markers t database code).text := by
    have removals := addsAll_foldl (grows_removeStep markers
      (roots .fieldRemoved (database.compare code .pull)))
      (fun o c hnone => (addsAll_removeStep _ o c hnone : AddsAll markers database _ _))
      (database.compare code .pull) { text := t } (removedIndexes_eq_nil grows_afterRemovals h)
    have additions := addsAll_foldl (grows_addStep markers
      (roots .fieldAdded (database.compare code .pull)) database)
      (fun o c _ => addsAll_addStep _ o c) (database.compare code .pull)
      (afterRemovals markers t database code) h
    exact removals.trans additions
  exact ⟨whole, whole.sublist⟩

/-- The edited table with an index that the code does not have. -/
def indexedTable : Table :=
  { editedTable "c" with indexes := [{ name := "by_c", columns := ["c"] }] }

theorem addsAll_merge_indexed :
    (merge {} editedText indexedTable (editedTable "b")).removedIndexes = [] ∧
      AddsAll {} indexedTable editedText (merge {} editedText indexedTable (editedTable "b")).text ∧
        editedText.Sublist (merge {} editedText indexedTable (editedTable "b")).text := by
  have kept : (merge {} editedText indexedTable (editedTable "b")).removedIndexes = [] := by
    refine List.eq_nil_iff_forall_not_mem.mpr fun name hname => ?_
    obtain ⟨-, c, hc, hlost⟩ := mem_removed_merge
      (List.mem_append_right _ (List.mem_map_of_mem hname))
    obtain ⟨⟨i, hi, -⟩, -⟩ := of_lost? hc hlost
    cases hi
  exact ⟨kept, addsAll_merge kept⟩

end SchemaDrift.Merge
