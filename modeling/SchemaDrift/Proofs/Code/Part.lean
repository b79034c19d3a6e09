import SchemaDrift.Proofs.Code.Depth

namespace SchemaDrift.Code

/-!
# Parts of a list

A list between brackets, whose elements are groups in parentheses, is a sequence of groups, commas,
and gaps of blanks and comments. Its entries are the groups.
-/

variable {t front back : Text} {ps qs : List Piece}

/-- Whether the piece is a blank or a comment. -/
def IsGap : Piece → Prop
  | .plain c => Text.isBlank c = true
  | .literal _ _ => False
  | .comment _ => True

/-- A part of a list. -/
inductive Part where
  | gap (p : Piece)
  | comma
  | group (inner : List Piece)

namespace Part

def pieces : Part → List Piece
  | gap p => [p]
  | comma => [.plain ',']
  | group inner => .plain '(' :: (inner ++ [.plain ')'])

def text (p : Part) : Text := textOf p.pieces

def IsSound : Part → Prop
  | gap p => IsGap p
  | comma => True
  | group inner => IsPaired inner

end Part

/-- The pieces of some parts. -/
def piecesOf (parts : List Part) : List Piece := parts.flatMap Part.pieces

@[simp] theorem piecesOf_nil : piecesOf [] = [] := rfl

@[simp] theorem piecesOf_cons (p : Part) (parts : List Part) :
    piecesOf (p :: parts) = p.pieces ++ piecesOf parts := rfl

@[simp] theorem piecesOf_append (a b : List Part) : piecesOf (a ++ b) = piecesOf a ++ piecesOf b :=
  List.flatMap_append

/-- Whether a comma stands between any two groups, and in front of the first group if an element is
open there. -/
def Alternate (isOpen : Bool) : List Part → Prop
  | [] => True
  | .gap _ :: rest => Alternate isOpen rest
  | .comma :: rest => Alternate false rest
  | .group _ :: rest => isOpen = false ∧ Alternate true rest

/-- The groups among the parts, as they are written. -/
def elementsOf (parts : List Part) : List Text :=
  parts.filterMap fun
    | .group inner => some (Part.text (.group inner))
    | _ => none

/-! ## Entries of parts -/

/-- The place of the comma behind the gaps. -/
def commaAfter (place : Nat) : List Part → Option Nat
  | .gap p :: rest => commaAfter (place + p.text.length) rest
  | .comma :: _ => some place
  | _ => none

/-- The entries of parts, the first of which stands at `place`. -/
def entriesAt (place : Nat) : List Part → List Entry
  | [] => []
  | p :: rest =>
    let after := place + p.text.length
    match p with
    | .group _ => ⟨place, after, commaAfter after rest⟩ :: entriesAt after rest
    | _ => entriesAt after rest

/-- Inside brackets an element goes on. -/
theorem entriesOf_inner {depth d : Nat} {a : List Item}
    (h : level depth (a.map Item.mark) = some d) (start stop : Nat) (b : List Item) :
    ∃ last, entriesOf (depth + 1) (some (start, stop)) (a ++ b) =
      entriesOf (d + 1) (some (start, last)) b := by
  induction a generalizing depth stop with
  | nil => exact ⟨stop, by rw [← Option.some.inj h]; rfl⟩
  | cons i a ih =>
    have deep : ¬ (i.mark = ',' ∧ ((depth : Int) + 1) = 0) := by omega
    have goesOn {e : Nat} (hrest : level e (a.map Item.mark) = some d) :
        ∃ last, (if Text.isBlank i.mark then entriesOf ((e : Int) + 1) (some (start, stop)) (a ++ b)
          else entriesOf ((e : Int) + 1) (some (start, i.stop)) (a ++ b)) =
            entriesOf (d + 1) (some (start, last)) b := by
      split
      · exact ih hrest stop
      · exact ih hrest i.stop
    simp only [List.map_cons, level, List.cons_append, entriesOf, if_neg deep] at h ⊢
    split at h
    · rename_i hopen
      simp only [if_pos hopen]
      exact_mod_cast goesOn h
    · rename_i hopen
      split at h
      · rename_i hclose
        cases depth with
        | zero => cases h
        | succ depth =>
          have less : ((depth + 1 : Nat) : Int) + 1 - 1 = depth + 1 := by omega
          simp only [if_neg hopen, if_pos hclose, less]
          exact goesOn h
      · rename_i hclose
        simp only [if_neg hopen, if_neg hclose]
        exact goesOn h

/-- A class of characters without brackets. -/
theorem not_bracket_of_class {p : Char → Bool} (hp : ∀ d ∈ ("()[]\x7b\x7d" : Text), p d = false)
    {c : Char} (h : p c = true) : opens c = false ∧ closes c = false := by
  have other (d : Char) (hd : d ∈ ("()[]\x7b\x7d" : Text)) : c ≠ d :=
    ne_of_apply_ne p (by simp [h, hp d hd])
  constructor
  · simp [opens, other '(' (by decide), other '[' (by decide), other '\x7b' (by decide)]
  · simp [closes, other ')' (by decide), other ']' (by decide), other '\x7d' (by decide)]

theorem not_bracket_of_isBlank {c : Char} (h : Text.isBlank c = true) :
    opens c = false ∧ closes c = false := not_bracket_of_class (by decide) h

theorem level_gap {p : Piece} (h : IsGap p) (depth : Nat) (ps : List Piece) :
    level depth (marks (p :: ps)) = level depth (marks ps) := by
  cases p with
  | literal q t => exact absurd h id
  | comment t => rfl
  | plain c =>
    obtain ⟨hopen, hclose⟩ := not_bracket_of_isBlank h
    simp [marks, Piece.mark?, level, hopen, hclose]

theorem entriesOf_gap {p : Piece} (h : IsGap p) (depth : Int) (current : Option (Nat × Nat))
    (place : Nat) (rest : List Item) :
    entriesOf depth current (itemsOf place [p] ++ rest) = entriesOf depth current rest := by
  cases p with
  | literal q t => exact absurd h id
  | comment t => rfl
  | plain c =>
    have blank : Text.isBlank c = true := h
    have comma : ¬ (c = ',' ∧ depth = 0) := by
      rintro ⟨rfl, -⟩
      cases blank
    obtain ⟨hopen, hclose⟩ := not_bracket_of_isBlank blank
    simp [itemsOf, Piece.mark?, entriesOf, comma, hopen, hclose, blank]

theorem itemsOf_group (inner : List Piece) (place : Nat) :
    itemsOf place (Part.group inner).pieces =
      ⟨place, place + 1, '('⟩ :: (itemsOf (place + 1) inner ++
        [⟨place + 1 + (textOf inner).length, place + (Part.group inner).text.length, ')'⟩]) := by
  have stop : place + 1 + (textOf inner).length + 1 = place + (Part.group inner).text.length := by
    simp [Part.text, Part.pieces, Piece.text]
    omega
  rw [← stop]
  exact congrArg (_ :: ·) (itemsOf_append (place + 1) inner [.plain ')'])

theorem entriesOf_group {inner : List Piece} (h : IsPaired inner) (place : Nat) (rest : List Item) :
    entriesOf 0 none (itemsOf place (Part.group inner).pieces ++ rest) =
      entriesOf 0 (some (place, place + (Part.group inner).text.length)) rest := by
  have closed : level 0 ((itemsOf (place + 1) inner).map Item.mark) = some 0 := by
    rw [map_mark_itemsOf]
    exact h
  obtain ⟨last, hinner⟩ := entriesOf_inner closed place (place + 1)
    (⟨place + 1 + (textOf inner).length, place + (Part.group inner).text.length, ')'⟩ :: rest)
  rw [itemsOf_group, List.cons_append, List.append_assoc, List.singleton_append]
  have opening : entriesOf 0 none (⟨place, place + 1, '('⟩ :: (itemsOf (place + 1) inner ++
      ⟨place + 1 + (textOf inner).length, place + (Part.group inner).text.length, ')'⟩ :: rest)) =
        entriesOf 1 (some (place, place + 1)) (itemsOf (place + 1) inner ++
      ⟨place + 1 + (textOf inner).length, place + (Part.group inner).text.length, ')'⟩ ::
      rest) := rfl
  rw [opening]
  exact hinner

/-- The entries of a list of groups are its groups. -/
theorem entriesOf_parts {parts : List Part} (hs : ∀ p ∈ parts, p.IsSound)
    (current : Option (Nat × Nat)) (ha : Alternate current.isSome parts) (place : Nat) :
    entriesOf 0 current (itemsOf place (piecesOf parts)) =
      (current.map fun c => ⟨c.1, c.2, commaAfter place parts⟩).toList ++
        entriesAt place parts := by
  induction parts generalizing current place with
  | nil =>
    simp only [piecesOf_nil, itemsOf, entriesOf, entriesAt, commaAfter, List.append_nil]
  | cons p parts ih =>
    obtain ⟨hp, hps⟩ := List.forall_mem_cons.mp hs
    rw [piecesOf_cons, itemsOf_append]
    cases p with
    | gap p =>
      have goesOn := ih hps current ha (place + p.text.length)
      have text : (Part.gap p).text = p.text := by simp [Part.text, Part.pieces]
      have own : textOf (Part.gap p).pieces = p.text := text
      simp only [entriesAt, commaAfter, text, own]
      exact (entriesOf_gap hp 0 current place _).trans goesOn
    | comma =>
      have goesOn := ih hps none ha (place + 1)
      have comma : entriesOf 0 current
          (itemsOf place Part.comma.pieces ++ itemsOf (place + 1) (piecesOf parts)) =
            (current.map fun c => ⟨c.1, c.2, some place⟩).toList ++
              entriesOf 0 none (itemsOf (place + 1) (piecesOf parts)) := rfl
      exact comma.trans (congrArg _ goesOn)
    | group inner =>
      obtain ⟨hclosed, hrest⟩ := ha
      cases current with
      | some c => cases hclosed
      | none =>
        have goesOn := ih hps (some (place, place + (Part.group inner).text.length)) hrest
          (place + (Part.group inner).text.length)
        exact (entriesOf_group hp place _).trans goesOn

/-- The entries of a list of groups, as they are written. -/
theorem map_slice_entriesAt (front back : Text) (parts : List Part) :
    (entriesAt front.length parts).map
        (fun e => Text.slice (front ++ (textOf (piecesOf parts) ++ back)) e.start e.stop) =
      elementsOf parts := by
  induction parts generalizing front with
  | nil => rfl
  | cons p parts ih =>
    have rest := ih (front ++ p.text)
    have whole : front ++ (textOf (piecesOf (p :: parts)) ++ back) =
        front ++ p.text ++ (textOf (piecesOf parts) ++ back) := by
      simp [Part.text]
    rw [whole]
    rw [List.length_append] at rest
    cases p with
    | gap p => exact rest
    | comma => exact rest
    | group inner =>
      have own : Text.slice (front ++ (Part.group inner).text ++ (textOf (piecesOf parts) ++ back))
          front.length (front.length + (Part.group inner).text.length) =
            (Part.group inner).text := by
        rw [List.append_assoc, Text.slice_length_add]
      exact congrArg₂ List.cons own rest

/-! ## The first wanted element -/

@[simp] theorem elementsOf_append (as bs : List Part) :
    elementsOf (as ++ bs) = elementsOf as ++ elementsOf bs := List.filterMap_append

/-- No element of a list is wanted, or one is the first of those that are. -/
theorem first_wanted_cases (wanted : Text → Bool) (parts : List Part) :
    (∀ x ∈ elementsOf parts, wanted x = false) ∨
      ∃ as inner bs, parts = as ++ .group inner :: bs ∧ wanted (Part.group inner).text = true ∧
        ∀ x ∈ elementsOf as, wanted x = false := by
  induction parts with
  | nil => exact .inl (by simp [elementsOf])
  | cons p parts ih =>
    by_cases hp : ∀ x ∈ elementsOf [p], wanted x = false
    · rcases ih with none | ⟨as, inner, bs, rfl, hwanted, hbefore⟩
      · left
        rw [← List.singleton_append, elementsOf_append]
        exact List.forall_mem_append.mpr ⟨hp, none⟩
      · refine .inr ⟨p :: as, inner, bs, rfl, hwanted, ?_⟩
        rw [← List.singleton_append, elementsOf_append]
        exact List.forall_mem_append.mpr ⟨hp, hbefore⟩
    · cases p with
      | gap g => exact absurd (by simp [elementsOf]) hp
      | comma => exact absurd (by simp [elementsOf]) hp
      | group inner =>
        have own : wanted (Part.group inner).text = true := by simpa [elementsOf] using hp
        exact .inr ⟨[], inner, parts, rfl, own, by simp [elementsOf]⟩

theorem find?_entriesAt_eq_none {parts : List Part} {wanted : Text → Bool} (front back : Text)
    (h : ∀ x ∈ elementsOf parts, wanted x = false) :
    (entriesAt front.length parts).find? (fun e => wanted (Text.slice
      (front ++ (textOf (piecesOf parts) ++ back)) e.start e.stop)) = none := by
  refine List.find?_eq_none.mpr fun e he => ?_
  have element := List.mem_map_of_mem (f := fun e : Entry => Text.slice
    (front ++ (textOf (piecesOf parts) ++ back)) e.start e.stop) he
  rw [map_slice_entriesAt] at element
  rw [h _ element]
  exact Bool.false_ne_true

/-- The first wanted group of a list is found. -/
theorem exists_find?_entriesAt {as : List Part} {inner : List Piece} {wanted : Text → Bool}
    (front : Text) (bs : List Part) (back : Text)
    (hwanted : wanted (Part.group inner).text = true)
    (hbefore : ∀ x ∈ elementsOf as, wanted x = false) :
    ∃ e, (entriesAt front.length (as ++ .group inner :: bs)).find? (fun e => wanted (Text.slice
        (front ++ (textOf (piecesOf (as ++ .group inner :: bs)) ++ back)) e.start e.stop)) =
          some e ∧
      e.start = front.length + (textOf (piecesOf as)).length := by
  induction as generalizing front with
  | nil =>
    have own : Text.slice (front ++ (textOf (piecesOf (.group inner :: bs)) ++ back)) front.length
        (front.length + (Part.group inner).text.length) = (Part.group inner).text := by
      have whole : front ++ (textOf (piecesOf (.group inner :: bs)) ++ back) =
          front ++ (Part.group inner).text ++ (textOf (piecesOf bs) ++ back) := by
        simp [Part.text]
      rw [whole, List.append_assoc, Text.slice_length_add]
    rw [List.nil_append, entriesAt, List.find?_cons_of_pos (by rw [own]; exact hwanted)]
    exact ⟨_, rfl, rfl⟩
  | cons p as ih =>
    have tail : ∀ x ∈ elementsOf as, wanted x = false := fun x hx => by
      refine hbefore x ?_
      rw [← List.singleton_append, elementsOf_append]
      exact List.mem_append_right _ hx
    obtain ⟨e, hfind, hstart⟩ := ih (front ++ p.text) tail
    have whole : front ++ (textOf (piecesOf (p :: as ++ .group inner :: bs)) ++ back) =
        front ++ p.text ++ (textOf (piecesOf (as ++ .group inner :: bs)) ++ back) := by
      simp [Part.text]
    have place : e.start = front.length + (textOf (piecesOf (p :: as))).length := by
      rw [hstart]
      simp [Part.text]
      omega
    refine ⟨e, ?_, place⟩
    rw [← whole, List.length_append] at hfind
    cases p with
    | gap g => exact hfind
    | comma => exact hfind
    | group other =>
      have own :
          Text.slice
            (front ++ (textOf (piecesOf (.group other :: as ++ .group inner :: bs)) ++ back))
            front.length (front.length + (Part.group other).text.length) =
            (Part.group other).text := by
        rw [whole, List.append_assoc front, Text.slice_length_add]
      have first := hbefore (Part.group other).text (by simp [elementsOf])
      rw [List.cons_append, entriesAt, List.find?_cons_of_neg]
      · exact hfind
      · rw [← List.cons_append, own, first]
        exact Bool.false_ne_true

/-! ## Parts of a text -/

/-- Whether the entry is one group in parentheses. -/
def IsGroup (t : Text) (e : Entry) : Prop :=
  t[e.start]? = some '(' ∧ matchingClose? t e.start = some (e.stop - 1) ∧
    t[e.stop - 1]? = some ')'

instance (t : Text) (e : Entry) : Decidable (IsGroup t e) :=
  inferInstanceAs (Decidable (t[e.start]? = some '(' ∧
    matchingClose? t e.start = some (e.stop - 1) ∧ t[e.stop - 1]? = some ')'))

/-- An element that has begun reaches at least as far as it was read. -/
theorem exists_cons_entriesOf {depth : Int} {start least stop : Nat} {a : List Item}
    (hstop : least ≤ stop) (h : ∀ i ∈ a, least ≤ i.stop) :
    ∃ last comma rest, entriesOf depth (some (start, stop)) a = ⟨start, last, comma⟩ :: rest ∧
      least ≤ last := by
  induction a generalizing depth stop with
  | nil => exact ⟨stop, none, [], rfl, hstop⟩
  | cons i a ih =>
    obtain ⟨hi, ha⟩ := List.forall_mem_cons.mp h
    simp only [entriesOf]
    split
    · exact ⟨stop, some i.start, _, rfl, hstop⟩
    · split
      · exact ih hstop ha
      · exact ih hi ha

/-- A code piece that is no quote is its character. -/
theorem eq_plain_of_mark? {before : Option Char} {p : Piece} {rest : Text} {c : Char}
    (h : IsCut before [p] rest) (hc : p.mark? = some c) (hq : c ∉ ['"', '\'']) : p = .plain c := by
  obtain ⟨⟨d, cs, hd, hfirst⟩, -⟩ := h
  cases p with
  | plain e => rw [Option.some.inj hc]
  | comment t => cases hc
  | literal q t =>
    obtain rfl := Option.some.inj hc
    refine absurd ?_ hq
    rcases first_cases before d (cs ++ (textOf [] ++ rest)) with hcomment | ⟨-, hliteral⟩ |
      ⟨-, -, hplain⟩
    · obtain ⟨s, hs⟩ := exists_comment_of_comment? hcomment
      rw [hfirst] at hs
      cases hs
    · obtain ⟨q, hq, s, hs⟩ := exists_literal_of_literal? hliteral
      rw [hfirst] at hs
      cases hs
      exact hq
    · rw [hfirst] at hplain
      cases hplain

/-- The piece at a place where a character seals is this character. -/
theorem eq_plain_of_getElem? {p : Piece} {c : Char} (h : pieces 0 none t = ps ++ p :: qs)
    (hc : t[(textOf ps).length]? = some c) (hs : (Piece.plain c).Seals) : p = .plain c := by
  have split : pieces 0 none t = (ps ++ [p]) ++ qs := by simpa using h
  obtain ⟨ht, hcut, -⟩ := isCut_of_pieces split
  obtain ⟨⟨d, cs, hd, hfirst⟩, -⟩ := (isCut_append_iff.mp hcut).2
  have same : d = c := by
    rw [ht, textOf_append, List.append_assoc, List.getElem?_append_right (Nat.le_refl _),
      Nat.sub_self] at hc
    simpa [hd] using hc
  rw [same, first_of_seals hs] at hfirst
  exact hfirst.symm

/-- The first group of a text, if its first entry is one. -/
theorem exists_group {front body rest : List Piece} {p : Piece} {e : Entry}
    (h : pieces 0 none t = front ++ (p :: body ++ rest)) (hbody : IsPaired (p :: body))
    (hstart : e.start = (textOf front).length) (he : IsGroup t e) :
    ∃ inner after, p :: body = (Part.group inner).pieces ++ after ∧ IsPaired inner ∧
      IsPaired after ∧ e.stop = (textOf front).length + (Part.group inner).text.length := by
  obtain ⟨hopen, hmatch, hclose⟩ := he
  rw [hstart] at hopen hmatch
  have start : pieces 0 none t = front ++ p :: (body ++ rest) := h
  obtain rfl := eq_plain_of_getElem? start hopen (by decide)
  have deep : level 1 (marks body) = some 0 := hbody
  rw [matchingClose?, itemsFrom_of_pieces h] at hmatch
  have search : closeFrom ((0 : Nat) + 1) (itemsOf ((textOf front).length + 1) (body ++ rest)) =
      some (e.stop - 1) := hmatch
  obtain ⟨inner, q, others, hsplit, hinner, ⟨c, hc, hcc⟩, hstop⟩ := exists_of_closeFrom search
  obtain ⟨after, rfl⟩ : ∃ after, body = inner ++ q :: after := by
    rcases List.append_eq_append_iff.mp hsplit with ⟨k, rfl, -⟩ | ⟨k, rfl, hk⟩
    · -- The body would close a bracket that was opened before it.
      rw [marks_append, level_append] at hinner
      obtain ⟨d, hd, -⟩ := Option.bind_eq_some_iff.mp hinner
      have := level_add hd 1
      rw [Nat.zero_add, deep] at this
      cases this
    · cases k with
      | nil =>
        have := level_add hinner 1
        rw [List.append_nil] at deep
        rw [Nat.zero_add, deep] at this
        cases this
      | cons r k =>
        obtain ⟨rfl, -⟩ := List.cons.inj hk
        exact ⟨k, rfl⟩
  have position : (textOf (front ++ .plain '(' :: inner)).length = e.stop - 1 := by
    rw [hstop]
    simp [Piece.text]
    omega
  rw [← position] at hclose
  have closing : pieces 0 none t = (front ++ .plain '(' :: inner) ++ q :: (after ++ rest) := by
    simpa using h
  obtain rfl := eq_plain_of_getElem? closing hclose (by decide)
  have closed : level 1 (marks inner) = some 1 := level_add hinner 1
  rw [marks_append, level_append, closed, Option.bind_some] at deep
  refine ⟨inner, after, by simp [Part.pieces], hinner, deep, ?_⟩
  simp only [Part.text, Part.pieces, textOf_append, textOf_cons, textOf_nil, Piece.text,
    List.length_append, List.length_cons, List.length_nil]
  omega

/-- What is left of a list whose entries are groups: the pieces of `body` behind those of `front`,
with the element `current` open between the two. -/
structure Grouped (t : Text) (front body rest : List Piece) (current : Option (Nat × Nat)) :
    Prop where
  pieces_eq : pieces 0 none t = front ++ (body ++ rest)
  isPaired : IsPaired body
  current_le : ∀ c ∈ current, c.2 ≤ (textOf front).length
  stop_eq : ∀ c ∈ current, ∀ e ∈ (entriesOf 0 current (itemsOf (textOf front).length body)).head?,
    e.stop = c.2
  isGroup : ∀ e ∈ (entriesOf 0 current (itemsOf (textOf front).length body)).drop
    current.toList.length, IsGroup t e

namespace Grouped

variable {front body rest : List Piece} {p : Piece} {current : Option (Nat × Nat)}

theorem isCut (h : Grouped t front (p :: body) rest current) :
    IsCut (lastOf none (textOf front)) [p] (textOf (body ++ rest)) := by
  have shift : pieces 0 none t = (front ++ [p]) ++ (body ++ rest) := by simpa using h.pieces_eq
  exact (isCut_append_iff.mp (isCut_of_pieces shift).2.1).2

theorem itemsOf_eq (front body : List Piece) (p : Piece) :
    itemsOf (textOf front).length (p :: body) =
    itemsOf (textOf front).length [p] ++ itemsOf (textOf (front ++ [p])).length body := by
  have place : (textOf (front ++ [p])).length = (textOf front).length + p.text.length := by simp
  rw [place]
  exact (itemsOf_append _ [p] body).trans (by simp)

theorem gap (h : Grouped t front (p :: body) rest current) (hp : IsGap p) :
    Grouped t (front ++ [p]) body rest current := by
  have same : entriesOf 0 current (itemsOf (textOf front).length (p :: body)) =
      entriesOf 0 current (itemsOf (textOf (front ++ [p])).length body) := by
    rw [itemsOf_eq, entriesOf_gap hp]
  refine ⟨by simpa using h.pieces_eq, (level_gap hp 0 body).symm.trans h.isPaired, fun c hc => ?_,
    same ▸ h.stop_eq, same ▸ h.isGroup⟩
  rw [textOf_append, List.length_append]
  exact (h.current_le c hc).trans (Nat.le_add_right _ _)

/-- A comma ends the element that is open. -/
theorem comma (h : Grouped t front (.plain ',' :: body) rest current) :
    Grouped t (front ++ [.plain ',']) body rest none := by
  have flush : entriesOf 0 current (itemsOf (textOf front).length (.plain ',' :: body)) =
      (current.map fun c => ⟨c.1, c.2, some (textOf front).length⟩).toList ++
        entriesOf 0 none (itemsOf (textOf (front ++ [.plain ','])).length body) := by
    rw [itemsOf_eq]
    rfl
  have skip :
      (current.map fun c => (⟨c.1, c.2, some (textOf front).length⟩ : Entry)).toList.length =
      current.toList.length := by
    cases current <;> rfl
  have groups := h.isGroup
  rw [flush, ← skip, List.drop_left] at groups
  exact ⟨by simpa using h.pieces_eq, h.isPaired, nofun, nofun, groups⟩

theorem exists_mark (h : Grouped t front (p :: body) rest current) (hp : ¬ IsGap p) :
    ∃ c, p.mark? = some c ∧ Text.isBlank c = false := by
  cases p with
  | comment t => exact absurd trivial hp
  | plain c => exact ⟨c, rfl, by simpa [IsGap] using hp⟩
  | literal q t =>
    refine ⟨q, rfl, ?_⟩
    by_cases hq : q ∈ ['"', '\'']
    · have quotes : ∀ d ∈ ['"', '\''], Text.isBlank d = false := by decide
      exact quotes q hq
    · cases eq_plain_of_mark? h.isCut rfl hq

/-- A piece that is neither a gap nor a comma begins an element, or goes on with the open one. -/
theorem exists_entry (h : Grouped t front (p :: body) rest current) (hp : ¬ IsGap p)
    (hcomma : p ≠ .plain ',') : ∃ last comma others,
      entriesOf 0 current (itemsOf (textOf front).length (p :: body)) =
        ⟨(current.map (·.1)).getD (textOf front).length, last, comma⟩ :: others ∧
      (textOf (front ++ [p])).length ≤ last := by
  obtain ⟨c, hc, blank⟩ := h.exists_mark hp
  have other : c ≠ ',' := by
    rintro rfl
    exact hcomma (eq_plain_of_mark? h.isCut hc (by decide))
  have item : itemsOf (textOf front).length [p] =
      [⟨(textOf front).length, (textOf (front ++ [p])).length, c⟩] := by
    simp [itemsOf, hc]
  have begins : ∃ d : Int, entriesOf 0 current (itemsOf (textOf front).length (p :: body)) =
      entriesOf d (some ((current.map (·.1)).getD (textOf front).length,
        (textOf (front ++ [p])).length)) (itemsOf (textOf (front ++ [p])).length body) := by
    rw [itemsOf_eq, item, List.singleton_append]
    simp only [entriesOf, other, false_and, if_false, blank, Bool.false_eq_true]
    exact ⟨_, rfl⟩
  obtain ⟨d, begins⟩ := begins
  have solid : Solid body := by
    have whole : pieces 0 none t = (front ++ p :: body) ++ rest := by simpa using h.pieces_eq
    exact fun q hq => solid_left whole q (by simp [hq])
  have later : ∀ i ∈ itemsOf (textOf (front ++ [p])).length body,
      (textOf (front ++ [p])).length ≤ i.stop := fun i hi =>
    (bounds_of_mem_itemsOf hi).1.trans (lt_stop_of_mem_itemsOf solid hi).le
  rw [begins]
  exact exists_cons_entriesOf (Nat.le_refl _) later

/-- Such a piece opens a group, and no element is open in front of it. -/
theorem group (h : Grouped t front (p :: body) rest current) (hp : ¬ IsGap p)
    (hcomma : p ≠ .plain ',') : current = none ∧ ∃ inner after,
      p :: body = (Part.group inner).pieces ++ after ∧ IsPaired inner ∧
      Grouped t (front ++ (Part.group inner).pieces) after rest
        (some ((textOf front).length, (textOf front).length + (Part.group inner).text.length)) := by
  obtain ⟨last, comma, others, head, hlast⟩ := h.exists_entry hp hcomma
  cases current with
  | some current =>
    -- The open element would reach beyond the piece.
    have positive : 0 < p.text.length :=
      List.length_pos_iff.mpr (solid_of_isCut h.isCut p (List.mem_singleton.mpr rfl))
    have place : (textOf (front ++ [p])).length = (textOf front).length + p.text.length := by simp
    have before := h.current_le current rfl
    have stop : last = current.2 := h.stop_eq current rfl _ (by rw [head]; rfl)
    omega
  | none =>
    have groups := h.isGroup
    rw [head] at groups
    obtain ⟨inner, after, hsplit, hinner, hafter, hstop⟩ :=
      exists_group h.pieces_eq h.isPaired rfl (groups _ List.mem_cons_self)
    have position : (textOf (front ++ (Part.group inner).pieces)).length =
        (textOf front).length + (Part.group inner).text.length := by
      rw [textOf_append, List.length_append]
      rfl
    have same : entriesOf 0
        (some ((textOf front).length, (textOf front).length + (Part.group inner).text.length))
        (itemsOf (textOf (front ++ (Part.group inner).pieces)).length after) =
          ⟨(textOf front).length, last, comma⟩ :: others := by
      rw [← entriesOf_group hinner, position]
      rw [hsplit, itemsOf_append] at head
      exact head
    refine ⟨rfl, inner, after, hsplit, hinner, ?_, hafter, ?_, ?_, ?_⟩
    · rw [h.pieces_eq, hsplit]
      simp
    · rintro _ ⟨⟩
      exact position.ge
    · rintro _ ⟨⟩ e he
      rw [same] at he
      cases he
      exact hstop
    · rw [same]
      exact fun e he => groups e (List.mem_cons_of_mem _ he)

/-- A list whose entries are groups consists of gaps, commas and groups. -/
theorem exists_parts (h : Grouped t front body rest current) :
    ∃ parts, (∀ p ∈ parts, p.IsSound) ∧ Alternate current.isSome parts ∧ piecesOf parts = body := by
  induction hn : body.length using Nat.strongRecOn generalizing front body current with
  | ind n ih =>
    cases body with
    | nil => exact ⟨[], by simp, trivial, rfl⟩
    | cons p body =>
      have short : body.length < n := hn ▸ Nat.lt_succ_self _
      by_cases hgap : IsGap p
      · obtain ⟨parts, hs, ha, rfl⟩ := ih _ short (h.gap hgap) rfl
        exact ⟨.gap p :: parts, List.forall_mem_cons.mpr ⟨hgap, hs⟩, ha, rfl⟩
      by_cases hcomma : p = .plain ','
      · subst hcomma
        obtain ⟨parts, hs, ha, rfl⟩ := ih _ short h.comma rfl
        exact ⟨.comma :: parts, List.forall_mem_cons.mpr ⟨trivial, hs⟩, ha, rfl⟩
      obtain ⟨rfl, inner, after, hsplit, hinner, hafter⟩ := h.group hgap hcomma
      have less : after.length < n := by
        rw [← hn, hsplit, List.length_append]
        exact Nat.lt_add_of_pos_left (Nat.succ_pos _)
      obtain ⟨parts, hs, ha, rfl⟩ := ih _ less hafter rfl
      exact ⟨.group inner :: parts, List.forall_mem_cons.mpr ⟨hinner, hs⟩, ⟨rfl, ha⟩, hsplit.symm⟩

end Grouped

end SchemaDrift.Code
