import SchemaDrift.Code.Search
import SchemaDrift.Proofs.Code.Part

namespace SchemaDrift.Code

/-!
# The frame of a list

The list of fields is found by the code in front of its bracket, and ends at the bracket that
matches it. Another list between the same brackets is found in the same place.
-/

variable {before : Option Char} {c : Char} {t t' u v w : Text} {pre post body qs : List Piece}

/-! ## Searches that end at a character -/

/-- Whether a pattern does not look behind the first character `c`. -/
def EndsAt (pattern : Pattern) (c : Char) : Prop :=
  ∀ before u v, pattern before (u ++ c :: v) = (pattern before (u ++ [c])).map (· ++ v)

theorem stripStart_append_cons {p : Text} (hc : c ∉ p) (u v : Text) :
    Text.stripStart p (u ++ c :: v) = (Text.stripStart p u).map (· ++ c :: v) := by
  induction p generalizing u with
  | nil => rfl
  | cons d p ih =>
    obtain ⟨hd, hp⟩ := not_or.mp fun h => hc (List.mem_cons.mpr h)
    cases u with
    | nil => simp [Text.stripStart, Ne.symm hd]
    | cons e u =>
      simp only [List.cons_append, Text.stripStart]
      split
      · exact ih hp u
      · rfl

theorem trimStart_append_cons (hc : Text.isBlank c = false) (u v : Text) :
    Text.trimStart (u ++ c :: v) = Text.trimStart u ++ c :: v := by
  rw [Text.trimStart, List.dropWhile_append, List.dropWhile_cons_of_neg (by simp [hc])]
  split
  · rename_i h
    rw [Text.trimStart, List.isEmpty_iff.mp h]
    rfl
  · rfl

theorem listStart?_append_cons (u v : Text) :
    listStart? (u ++ '[' :: v) = (listStart? (u ++ ['['])).map (· ++ v) := by
  have word (z : Text) := stripStart_append_cons (show '[' ∉ ("vec!" : Text) by decide) u z
  unfold listStart?
  rw [word v, word []]
  cases Text.stripStart "vec!" u with
  | none => rfl
  | some r =>
    have blanks (z : Text) := trimStart_append_cons (show Text.isBlank '[' = false by decide) r z
    simp only [Option.map_some, Option.bind_eq_bind, Option.bind_some, blanks]
    cases Text.trimStart r with
    | nil => rfl
    | cons d r =>
      have bracket : ("[" : Text) = ['['] := rfl
      simp only [List.cons_append, bracket, Text.stripStart]
      split <;> simp

theorem endsAt_fieldsPattern : EndsAt fieldsPattern '[' := by
  intro before u v
  have word (z : Text) := stripStart_append_cons (show '[' ∉ (".fields(" : Text) by decide) u z
  unfold fieldsPattern
  rw [word v, word []]
  cases Text.stripStart ".fields(" u with
  | none => rfl
  | some r =>
    have blanks (z : Text) := trimStart_append_cons (show Text.isBlank '[' = false by decide) r z
    simp only [Option.map_some, Option.bind_eq_bind, Option.bind_some, blanks]
    exact listStart?_append_cons _ v

theorem le_of_findFrom {pattern : Pattern} {accepts : Nat → Bool} {place skip start stop : Nat}
    (h : findFrom pattern accepts place skip before t = some (start, stop)) : place ≤ start := by
  induction t generalizing place skip before with
  | nil => cases h
  | cons c t ih =>
    unfold findFrom at h
    split at h
    · have := ih h
      omega
    · split at h
      · have := ih h
        omega
      · split at h
        · cases h
          exact Nat.le_refl _
        · have := ih h
          omega

/-- A search that ends at a character finds the same if something else stands behind it. -/
theorem findFrom_exchange {pattern : Pattern} {accepts accepts' : Nat → Bool}
    {place skip start stop : Nat}
    (hp : ∀ before a x v, u = a ++ x → place + a.length ≤ start →
      pattern before (x ++ c :: v) = (pattern before (x ++ [c])).map (· ++ v))
    (ha : ∀ i, place ≤ i → i ≤ place + u.length → accepts i = accepts' i)
    (hstart : start ≤ place + u.length)
    (h : findFrom pattern accepts place skip before (u ++ c :: v) = some (start, stop)) (w : Text) :
    findFrom pattern accepts' place skip before (u ++ c :: w) = some (start, stop) := by
  induction u generalizing place skip before with
  | nil =>
    have beyond {skip' : Nat} {before' : Option Char}
        (hf : findFrom pattern accepts (place + 1) skip' before' v = some (start, stop)) :
          False := by
      have := le_of_findFrom hf
      simp only [List.length_nil] at hstart
      omega
    have same (v : Text) := hp before [] [] v rfl (le_of_findFrom h)
    simp only [List.nil_append] at h same ⊢
    unfold findFrom at h ⊢
    cases skip with
    | succ skip => exact (beyond h).elim
    | zero =>
      simp only [same v, same w] at h ⊢
      cases hm : pattern before [c] with
      | none =>
        rw [hm] at h
        exact (beyond h).elim
      | some r =>
        rw [hm] at h
        simp only [Option.map_some, ha place (Nat.le_refl _) (Nat.le_add_right _ _)] at h ⊢
        split at h
        · rename_i hacc
          rw [if_pos hacc, ← h]
          simp only [List.length_cons, List.length_append]
          congr 3
          omega
        · exact (beyond h).elim
  | cons d u ih =>
    have later {skip' : Nat} {before' : Option Char}
        (hf : findFrom pattern accepts (place + 1) skip' before' (u ++ c :: v) =
          some (start, stop)) :
        findFrom pattern accepts' (place + 1) skip' before' (u ++ c :: w) = some (start, stop) := by
      rw [List.length_cons] at ha hstart
      have behind : ∀ before a x v, u = a ++ x → place + 1 + a.length ≤ start →
          pattern before (x ++ c :: v) = (pattern before (x ++ [c])).map (· ++ v) := by
        intro before a x v hu hle
        exact hp before (d :: a) x v (by rw [hu]; rfl) (by rw [List.length_cons]; omega)
      exact ih behind (fun i hi hi' => ha i (by omega) (by omega)) (by omega) hf
    have same (v : Text) := hp before [] (d :: u) v rfl (le_of_findFrom h)
    simp only [List.cons_append] at h same ⊢
    unfold findFrom at h ⊢
    cases skip with
    | succ skip => exact later h
    | zero =>
      simp only [same v, same w] at h ⊢
      cases hm : pattern before (d :: (u ++ [c])) with
      | none =>
        rw [hm] at h
        exact later h
      | some r =>
        rw [hm] at h
        simp only [Option.map_some, ha place (Nat.le_refl _) (Nat.le_add_right _ _)] at h ⊢
        have length (z : Text) : (d :: (u ++ c :: z)).length - (r ++ z).length =
            (d :: (u ++ [c])).length - r.length := by
          simp only [List.length_cons, List.length_append, List.length_nil]
          omega
        rw [length v] at h
        rw [length w]
        split at h
        · rename_i hacc
          rw [if_pos hacc, ← h]
        · rename_i hacc
          rw [if_neg hacc]
          exact later h

/-! ## Brackets -/

section Brackets

variable {opening close : Char}
  (h : pieces 0 none t = pre ++ .plain opening :: (body ++ .plain close :: post))
include h

theorem matchingClose?_of_pieces (ho : opens opening = true) (hc : closes close = true)
    (hb : IsPaired body) : matchingClose? t (textOf pre).length =
      some ((textOf pre).length + 1 + (textOf body).length) := by
  have closed : level 0 ((itemsOf ((textOf pre).length + 1) body).map Item.mark) = some 0 := by
    rw [map_mark_itemsOf]
    exact hb
  have notOpen : opens close = false := by
    simp only [Code.closes, Bool.or_eq_true, beq_iff_eq] at hc
    rcases hc with (rfl | rfl) | rfl <;> decide
  have step : closeFrom 0 (itemsOf (textOf pre).length
      (.plain opening :: (body ++ .plain close :: post))) =
        closeFrom ((0 : Nat) + 1) (itemsOf ((textOf pre).length + 1) body ++
          itemsOf ((textOf pre).length + 1 + (textOf body).length) (.plain close :: post)) := by
    rw [← itemsOf_append]
    simp [itemsOf, Piece.mark?, closeFrom, ho, Piece.text]
  rw [matchingClose?, itemsFrom_of_pieces h, step, closeFrom_append closed]
  simp [itemsOf, Piece.mark?, closeFrom, notOpen, hc]

/-- The entries between two brackets are those of the pieces between them. -/
theorem entries_of_pieces :
    entries t (textOf pre).length ((textOf pre).length + 1 + (textOf body).length) =
      entriesOf 0 none (itemsOf ((textOf pre).length + 1) body) := by
  have split : pieces 0 none t = (pre ++ [.plain opening]) ++ (body ++ .plain close :: post) := by
    simpa using h
  have length : (textOf (pre ++ [.plain opening])).length = (textOf pre).length + 1 := by
    simp [Piece.text]
  have items := itemsFrom_of_pieces split
  rw [length] at items
  rw [entries, items, itemsOf_append]
  have inside : ∀ i ∈ itemsOf ((textOf pre).length + 1) body,
      decide (i.start < (textOf pre).length + 1 + (textOf body).length) = true := by
    intro i hi
    have whole : pieces 0 none t = (pre ++ .plain opening :: body) ++ .plain close :: post := by
      simpa using h
    have solid : Solid body := fun p hp => solid_left whole p (by simp [hp])
    have hstop := (bounds_of_mem_itemsOf hi).2
    have hlt := lt_stop_of_mem_itemsOf solid hi
    simp only [decide_eq_true_eq]
    omega
  rw [List.takeWhile_append_of_pos inside]
  simp [itemsOf, Piece.mark?]

end Brackets

/-! ## The list of fields -/

/-- Which places of a text up to a character of code are code depends on what stands before it. -/
theorem isCode_eq {place : Nat} (h : pieces 0 none t = pre ++ .plain c :: qs)
    (hplace : place ≤ (textOf pre).length) :
    isCode t place = ((itemsOf 0 pre).any (·.start == place) || (textOf pre).length == place) := by
  have beyond : (itemsOf ((textOf pre).length + 1) qs).any (·.start == place) = false := by
    rw [List.any_eq_false]
    intro i hi
    have := (bounds_of_mem_itemsOf hi).1
    simp only [beq_iff_eq]
    omega
  have own : itemsOf (textOf pre).length (.plain c :: qs) =
      ⟨(textOf pre).length, (textOf pre).length + 1, c⟩ ::
      itemsOf ((textOf pre).length + 1) qs := rfl
  rw [isCode, items, h, itemsOf_append, Nat.zero_add, own, List.any_append, List.any_cons, beyond,
    Bool.or_false]

/-- The pieces around the list of fields of a text, and those inside it. -/
structure Framed (t : Text) (pre body post : List Piece) (close : Char) : Prop where
  pieces_eq : pieces 0 none t = pre ++ .plain '[' :: (body ++ .plain close :: post)
  found : ∃ start, start ≤ (textOf pre).length ∧
    find? fieldsPattern t 0 = some (start, (textOf pre).length + 1)
  isPaired : IsPaired body
  closes : closes close = true

namespace Framed

variable {close : Char}

theorem text_eq (h : Framed t pre body post close) :
    t = textOf pre ++ '[' :: (textOf body ++ close :: textOf post) := by
  have whole := flatMap_text_pieces t
  rw [h.pieces_eq] at whole
  have joined : textOf (pre ++ .plain '[' :: (body ++ .plain close :: post)) = t := whole
  rw [← joined]
  simp [Piece.text]

/-- The pieces of a framed text up to the body. -/
theorem pieces_body (h : Framed t pre body post close) :
    pieces 0 none t = (pre ++ [.plain '[']) ++ (body ++ .plain close :: post) := by
  simpa using h.pieces_eq

theorem length_opening : (textOf (pre ++ [.plain '['])).length = (textOf pre).length + 1 := by
  simp [Piece.text]

theorem matchingClose?_eq (h : Framed t pre body post close) :
    matchingClose? t (textOf pre).length =
      some ((textOf pre).length + 1 + (textOf body).length) :=
  matchingClose?_of_pieces h.pieces_eq (by decide) h.closes h.isPaired

theorem fieldsList?_eq (h : Framed t pre body post close) :
    fieldsList? t = some ((textOf pre).length, (textOf pre).length + 1 + (textOf body).length) := by
  obtain ⟨start, -, hfound⟩ := h.found
  rw [fieldsList?, hfound, Option.bind_some, brackets?]
  simp [h.matchingClose?_eq]

/-- The entries of the list are those of the body. -/
theorem entries_eq (h : Framed t pre body post close) :
    entries t (textOf pre).length ((textOf pre).length + 1 + (textOf body).length) =
      entriesOf 0 none (itemsOf ((textOf pre).length + 1) body) :=
  entries_of_pieces h.pieces_eq

/-- Another closed body between the same brackets is framed as well. -/
theorem exchange (h : Framed t pre body post close) {body' : List Piece}
    (hp : pieces 0 none t' = pre ++ .plain '[' :: (body' ++ .plain close :: post))
    (hb : IsPaired body') : Framed t' pre body' post close where
  pieces_eq := hp
  found := by
    obtain ⟨start, hle, hfound⟩ := h.found
    refine ⟨start, hle, ?_⟩
    have same : ∀ i, 0 ≤ i → i ≤ 0 + (textOf pre).length → isCode t i = isCode t' i :=
      fun i _ hi => (isCode_eq h.pieces_eq (by omega)).trans (isCode_eq hp (by omega)).symm
    have text' : t' = textOf pre ++ '[' :: (textOf body' ++ close :: textOf post) := by
      rw [(isCut_of_pieces hp).1]
      simp [Piece.text]
    have search : findFrom fieldsPattern (isCode t) 0 0 none
        (textOf pre ++ '[' :: (textOf body ++ close :: textOf post)) =
          some (start, (textOf pre).length + 1) := by
      rw [← h.text_eq]
      exact hfound
    have again := findFrom_exchange (fun before _ x v _ _ => endsAt_fieldsPattern before x v) same
      (by omega) search (textOf body' ++ close :: textOf post)
    rw [← text'] at again
    exact again
  isPaired := hb
  closes := h.closes

end Framed

theorem exists_of_listStart? {r : Text} (h : listStart? t = some r) :
    ∃ m, t = m ++ '[' :: r ∧ ∀ c ∈ m, (Piece.plain c).Seals := by
  obtain ⟨rest, hword, hopen⟩ := Option.bind_eq_some_iff.mp h
  have bracket : Text.trimStart rest = '[' :: r := Text.stripStart_eq_some_iff.mp hopen
  refine ⟨"vec!" ++ rest.takeWhile Text.isBlank, ?_, ?_⟩
  · rw [Text.stripStart_eq_some_iff.mp hword, List.append_assoc, ← bracket, Text.trimStart,
      List.takeWhile_append_dropWhile]
  · have word : ∀ c ∈ ("vec!" : Text), (Piece.plain c).Seals := by decide
    exact List.forall_mem_append.mpr ⟨word, fun c hc =>
      seals_of_isBlank (List.mem_takeWhile_imp (p := Text.isBlank) hc)⟩

theorem exists_of_fieldsPattern {r : Text} (h : fieldsPattern before t = some r) :
    ∃ m, t = m ++ '[' :: r ∧ ∀ c ∈ m, (Piece.plain c).Seals := by
  obtain ⟨rest, hword, hlist⟩ := Option.bind_eq_some_iff.mp h
  obtain ⟨m, hm, hseals⟩ := exists_of_listStart? hlist
  refine ⟨".fields(" ++ (rest.takeWhile Text.isBlank ++ m), ?_, ?_⟩
  · rw [Text.stripStart_eq_some_iff.mp hword, List.append_assoc, List.append_assoc, ← hm,
      Text.trimStart, List.takeWhile_append_dropWhile]
  · have word : ∀ c ∈ (".fields(" : Text), (Piece.plain c).Seals := by decide
    exact List.forall_mem_append.mpr ⟨word, List.forall_mem_append.mpr ⟨fun c hc =>
      seals_of_isBlank (List.mem_takeWhile_imp (p := Text.isBlank) hc), hseals⟩⟩

/-- A search finds a place that it accepts, from which the pattern matches. -/
theorem exists_of_findFrom {pattern : Pattern} {accepts : Nat → Bool}
    {place skip start stop : Nat}
    (h : findFrom pattern accepts place skip before t = some (start, stop)) :
    accepts start = true ∧ ∃ b r, pattern b (t.drop (start - place)) = some r ∧
      stop = start + ((t.drop (start - place)).length - r.length) := by
  induction t generalizing place skip before with
  | nil => cases h
  | cons c t ih =>
    have later {skip' : Nat} {before' : Option Char}
        (hf : findFrom pattern accepts (place + 1) skip' before' t = some (start, stop)) :
        accepts start = true ∧ ∃ b r, pattern b ((c :: t).drop (start - place)) = some r ∧
          stop = start + (((c :: t).drop (start - place)).length - r.length) := by
      have hle := le_of_findFrom hf
      have shift : (c :: t).drop (start - place) = t.drop (start - (place + 1)) := by
        rw [show start - place = (start - (place + 1)) + 1 by omega, List.drop_succ_cons]
      rw [shift]
      exact ih hf
    unfold findFrom at h
    split at h
    · exact later h
    · split at h
      · exact later h
      · rename_i r hr
        split at h
        · rename_i hacc
          cases h
          rw [Nat.sub_self, List.drop_zero]
          exact ⟨hacc, _, r, hr, rfl⟩
        · exact later h

/-- What closes a bracket is a piece of its own. -/
theorem eq_plain_of_closes {ps rest : List Piece} {p : Piece}
    (h : pieces 0 none t = ps ++ p :: rest)
    (hmark : p.mark? = some c) (hc : closes c = true) : p = .plain c := by
  have split : pieces 0 none t = (ps ++ [p]) ++ rest := by simpa using h
  refine eq_plain_of_mark? (isCut_append_iff.mp (isCut_of_pieces split).2.1).2 hmark
    fun hquote => ?_
  have quotes : ∀ d ∈ ['"', '\''], closes d = false := by decide
  rw [quotes c hquote] at hc
  cases hc

/-- A list whose literal was found stands between two brackets. -/
theorem exists_body {pattern : Pattern}
    (hpattern : ∀ b u r, pattern b u = some r →
      ∃ m, u = m ++ '[' :: r ∧ ∀ c ∈ m, (Piece.plain c).Seals)
    {place start stop opening closing : Nat} (hfound : find? pattern t place = some (start, stop))
    (hbrackets : brackets? t (start, stop) = some (opening, closing)) :
    ∃ pre body close post, pieces 0 none t = pre ++ .plain '[' :: (body ++ .plain close :: post) ∧
      IsPaired body ∧ closes close = true ∧ place ≤ start ∧ start ≤ (textOf pre).length ∧
      stop = (textOf pre).length + 1 ∧ opening = (textOf pre).length ∧
      closing = (textOf pre).length + 1 + (textOf body).length := by
  obtain ⟨bracket, hmatch, he⟩ := Option.map_eq_some_iff.mp hbrackets
  obtain ⟨hcode, b, r, hr, hstop⟩ := exists_of_findFrom hfound
  obtain ⟨ps, p, qs, hpieces, hplace, -⟩ := exists_of_isCode hcode
  obtain ⟨m, hm, hseals⟩ := hpattern b _ r hr
  obtain ⟨htext, -, hrest⟩ := isCut_of_pieces hpieces
  have later : place ≤ start := le_of_findFrom hfound
  -- What matches is code up to the bracket, since each of its characters is a piece of its own.
  have here : t.drop start = textOf (p :: qs) := by
    rw [← hplace, htext, List.drop_left]
  rw [List.drop_drop, Nat.add_sub_cancel' later] at hm hstop
  rw [← here, hm] at hrest
  have cuts : Cuts (plains (m ++ ['['])) := cuts_plains_of_seals <|
    List.forall_mem_append.mpr ⟨hseals, by decide⟩
  have run := cuts.pieces_append (lastOf none (textOf ps)) r
  rw [textOf_plains, List.append_assoc, List.singleton_append, hrest] at run
  have whole : pieces 0 none t = (ps ++ plains m) ++ .plain '[' ::
      pieces 0 (lastOf (lastOf none (textOf ps)) (m ++ ['['])) r := by
    rw [hpieces, run]
    simp
  have opened : stop = (textOf (ps ++ plains m)).length + 1 := by
    rw [hstop, hm, ← hplace]
    simp
    omega
  simp only [Prod.mk.injEq] at he
  obtain ⟨rfl, rfl⟩ := he
  have first : stop - 1 = (textOf (ps ++ plains m)).length := by omega
  rw [first, matchingClose?, itemsFrom_of_pieces whole] at hmatch
  obtain ⟨body, q, post, hsplit, hbody, ⟨close, hq, hclose⟩, hclosing⟩ := exists_of_closeFrom
    (show closeFrom ((0 : Nat) + 1) (itemsOf ((textOf (ps ++ plains m)).length + 1) _) =
      _ from hmatch)
  rw [hsplit] at whole
  have own : q = .plain close := by
    rw [← List.cons_append, ← List.append_assoc] at whole
    exact eq_plain_of_closes whole hq hclose
  rw [own] at whole
  exact ⟨ps ++ plains m, body, close, post, whole, hbody, hclose, later, by simp [← hplace], opened,
    first, hclosing⟩

/-- The list of fields has a frame. -/
theorem exists_framed {opening closing : Nat} (h : fieldsList? t = some (opening, closing)) :
    ∃ pre body post close, Framed t pre body post close ∧ opening = (textOf pre).length ∧
      closing = (textOf pre).length + 1 + (textOf body).length := by
  obtain ⟨⟨start, stop⟩, hfound, hbrackets⟩ := Option.bind_eq_some_iff.mp h
  obtain ⟨pre, body, close, post, hpieces, hbody, hclose, -, hstart, hstop, hopening, hclosing⟩ :=
    exists_body (fun _ _ _ hr => exists_of_fieldsPattern hr) hfound hbrackets
  exact ⟨pre, body, post, close,
    ⟨hpieces, ⟨start, hstart, hfound.trans (by rw [hstop])⟩, hbody, hclose⟩, hopening, hclosing⟩

end SchemaDrift.Code
