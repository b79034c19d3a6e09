import SchemaDrift.Merge.Edit
import SchemaDrift.Proofs.Code.Frame

namespace SchemaDrift.Code

/-!
# Cells of a list

What stands between the brackets of a list is cut into cells: an element, and the blanks, comments
and commas behind it. This holds of any list, whatever its elements look like.
-/

variable {p : Piece} {ps qs es ls body : List Piece} {place start stop : Nat}

/-- Whether the piece belongs to no element. -/
def IsLoose (p : Piece) : Prop := IsGap p ∨ p = .plain ','

/-- Whether the piece is no literal, or one that starts with a quote. -/
def Piece.IsGenuine : Piece → Prop
  | .literal quote _ => quote ∈ ['"', '\'']
  | _ => True

/-- Whether the pieces can be an element. Its brackets are closed, and no comma stands outside of
them. -/
structure IsCore (es : List Piece) : Prop where
  genuine : ∀ p ∈ es, p.IsGenuine
  closed : IsPaired es
  first : ∀ p ∈ es.head?, ¬ IsLoose p
  last : ∃ qs p, es = qs ++ [p] ∧ ¬ IsGap p
  noComma : ∀ as bs, es = as ++ .plain ',' :: bs → ¬ IsPaired as

/-- An element, and what stands behind it up to the next one. -/
structure Cell where
  core : List Piece
  tail : List Piece

def Cell.pieces (s : Cell) : List Piece := s.core ++ s.tail

def cellPieces (ss : List Cell) : List Piece := ss.flatMap Cell.pieces

/-- Whether a comma stands behind every element but the last, which may have one. -/
def AreCells : List Cell → Prop
  | [] => True
  | s :: ss => IsCore s.core ∧ (∀ p ∈ s.tail, IsLoose p) ∧
      (ss = [] ∨ .plain ',' ∈ s.tail) ∧ AreCells ss

/-- The place of the first comma. -/
def commaIn (place : Nat) : List Piece → Option Nat
  | [] => none
  | p :: ps => if p = .plain ',' then some place else commaIn (place + p.text.length) ps

def Cell.entry (place : Nat) (s : Cell) : Entry :=
  ⟨place, place + (textOf s.core).length, commaIn (place + (textOf s.core).length) s.tail⟩

/-- The entries of cells, the first of which stands at `place`. -/
def cellEntries (place : Nat) : List Cell → List Entry
  | [] => []
  | s :: ss => s.entry place :: cellEntries (place + (textOf s.pieces).length) ss

@[simp] theorem cellPieces_nil : cellPieces [] = [] := rfl

@[simp] theorem cellPieces_cons (s : Cell) (ss : List Cell) :
    cellPieces (s :: ss) = s.core ++ (s.tail ++ cellPieces ss) := List.append_assoc _ _ _

@[simp] theorem cellPieces_append (as bs : List Cell) :
    cellPieces (as ++ bs) = cellPieces as ++ cellPieces bs := List.flatMap_append

/-! ## Pieces -/

theorem isGenuine_of_mem (h : p ∈ pieces 0 none t) : p.IsGenuine := by
  cases p with
  | plain c => trivial
  | comment s => trivial
  | literal q s =>
    obtain ⟨as, bs, hsplit⟩ := List.append_of_mem h
    rw [← List.singleton_append, ← List.append_assoc] at hsplit
    obtain ⟨-, hcut, -⟩ := isCut_of_pieces hsplit
    by_contra hq
    cases eq_plain_of_mark? (isCut_append_iff.mp hcut).2 rfl hq

theorem Piece.IsGenuine.exists_mark (hg : p.IsGenuine) (h : ¬ IsGap p) :
    ∃ c, p.mark? = some c ∧ Text.isBlank c = false := by
  cases p with
  | comment s => exact absurd trivial h
  | plain c => exact ⟨c, rfl, by simpa [IsGap] using h⟩
  | literal q s =>
    have quotes : ∀ q ∈ ['"', '\''], Text.isBlank q = false := by decide
    exact ⟨q, rfl, quotes q hg⟩

theorem Piece.IsGenuine.eq_comma (hg : p.IsGenuine) (h : p.mark? = some ',') : p = .plain ',' := by
  cases p with
  | comment s => cases h
  | plain c => rw [Option.some.inj h]
  | literal q s =>
    have quotes : ',' ∉ ['"', '\''] := by decide
    exact absurd (Option.some.inj h ▸ hg) quotes

theorem not_mem_plains {x : Text} {c : Char} (h : c ∉ x) : .plain c ∉ plains x := fun hm => by
  obtain ⟨d, hd, he⟩ := List.mem_map.mp hm
  exact h (Piece.plain.inj he ▸ hd)

theorem level_loose (hl : ∀ p ∈ ls, IsLoose p) (depth : Nat) (ps : List Piece) :
    level depth (marks (ls ++ ps)) = level depth (marks ps) := by
  induction ls with
  | nil => rfl
  | cons p ls ih =>
    obtain ⟨hp, hls⟩ := List.forall_mem_cons.mp hl
    rw [← ih hls]
    rcases hp with hgap | rfl
    · exact level_gap hgap depth _
    · rfl

theorem level_cons (depth : Nat) (p : Piece) (ps : List Piece) :
    level depth (marks (p :: ps)) = (level depth (marks [p])).bind fun d => level d (marks ps) := by
  rw [← level_append, ← marks_append]
  rfl

/-! ## Entries -/

theorem itemsOf_plains_cons (place : Nat) (c : Char) (x : Text) :
    itemsOf place (plains (c :: x)) = ⟨place, place + 1, c⟩ :: itemsOf (place + 1) (plains x) := rfl

theorem itemsOf_cons_append (place : Nat) (p : Piece) (ps : List Piece) (rest : List Item) :
    itemsOf place (p :: ps) ++ rest =
      itemsOf place [p] ++ (itemsOf (place + p.text.length) ps ++ rest) := by
  rw [← List.append_assoc, ← List.singleton_append, itemsOf_append]
  simp

/-- An element is begun or continued by a piece of code that is no comma outside of brackets. -/
theorem entriesOf_piece {depth d : Nat} (hg : p.IsGenuine) (hp : ¬ IsGap p)
    (h : level depth (marks [p]) = some d) (hc : p = .plain ',' → depth ≠ 0)
    (current : Option (Nat × Nat)) (place : Nat) (rest : List Item) :
    entriesOf depth current (itemsOf place [p] ++ rest) =
      entriesOf d (some ((current.map (·.1)).getD place, place + p.text.length)) rest := by
  obtain ⟨c, hmark, hblank⟩ := hg.exists_mark hp
  have item : itemsOf place [p] = [⟨place, place + p.text.length, c⟩] := by
    simp [itemsOf, hmark]
  have inside : ¬ (c = ',' ∧ (depth : Int) = 0) := by
    rintro ⟨rfl, hdepth⟩
    exact hc (hg.eq_comma hmark) (by exact_mod_cast hdepth)
  have marks : marks [p] = [c] := by simp [marks, hmark]
  rw [item, List.singleton_append]
  rw [marks] at h
  simp only [level, entriesOf, if_neg inside, hblank, Bool.false_eq_true, if_false] at h ⊢
  split at h
  · rename_i hopen
    rw [if_pos hopen, ← Option.some.inj h]
    rfl
  · rename_i hopen
    rw [if_neg hopen]
    split at h
    · rename_i hclose
      rw [if_pos hclose]
      cases depth with
      | zero => cases h
      | succ depth =>
        have less : ((depth + 1 : Nat) : Int) - 1 = d := by
          rw [← Option.some.inj h]
          omega
        rw [less]
    · rename_i hclose
      rw [if_neg hclose, Option.some.inj h]

/-- An element goes on up to a comma outside of brackets. -/
theorem entriesOf_inside {depth d : Nat} (hg : ∀ p ∈ ps, p.IsGenuine)
    (h : level depth (marks ps) = some d)
    (hc : ∀ as bs, ps = as ++ .plain ',' :: bs → level depth (marks as) ≠ some 0)
    (start stop place : Nat) (rest : List Item) :
    ∃ last, entriesOf depth (some (start, stop)) (itemsOf place ps ++ rest) =
      entriesOf d (some (start, last)) rest := by
  induction ps generalizing depth stop place with
  | nil => exact ⟨stop, by rw [← Option.some.inj h]; rfl⟩
  | cons p ps ih =>
    obtain ⟨hp, hps⟩ := List.forall_mem_cons.mp hg
    rw [level_cons] at h
    obtain ⟨d', hd', hrest⟩ := Option.bind_eq_some_iff.mp h
    have later (as bs : List Piece) (hsplit : ps = as ++ .plain ',' :: bs) :
        level d' (marks as) ≠ some 0 := by
      have whole := hc (p :: as) bs (by rw [hsplit]; rfl)
      rwa [level_cons, hd', Option.bind_some] at whole
    rw [itemsOf_cons_append]
    by_cases hgap : IsGap p
    · rw [level_gap hgap] at hd'
      obtain rfl := Option.some.inj hd'
      rw [entriesOf_gap hgap]
      exact ih hps hrest later stop _
    · have inside : p = .plain ',' → depth ≠ 0 := by
        rintro rfl rfl
        exact hc [] ps rfl rfl
      rw [entriesOf_piece hp hgap hd' inside]
      exact ih hps hrest later _ _

theorem entriesOf_core (h : IsCore es) (place : Nat) (rest : List Item) :
    entriesOf 0 none (itemsOf place es ++ rest) =
      entriesOf 0 (some (place, place + (textOf es).length)) rest := by
  obtain ⟨qs, p, rfl, hlast⟩ := h.last
  have genuine := h.genuine p (by simp)
  have closed := h.closed
  cases qs with
  | nil =>
    have begins : p = .plain ',' → (0 : Nat) ≠ 0 := fun hp _ => h.first p rfl (.inr hp)
    have step := entriesOf_piece genuine hlast closed begins none place rest
    simpa using step
  | cons q qs =>
    have first : ¬ IsLoose q := h.first q rfl
    rw [List.cons_append, IsPaired, level_cons] at closed
    obtain ⟨d, hd, hrest⟩ := Option.bind_eq_some_iff.mp closed
    rw [marks_append, level_append] at hrest
    obtain ⟨d', hd', hclose⟩ := Option.bind_eq_some_iff.mp hrest
    -- The depth in front of a comma is that of the pieces from the first one on.
    have inside (as bs : List Piece) (hsplit : qs = as ++ .plain ',' :: bs) :
        level d (marks as) ≠ some 0 := by
      have whole := h.noComma (q :: as) (bs ++ [p]) (by rw [hsplit]; simp)
      rwa [IsPaired, level_cons, hd, Option.bind_some] at whole
    have behind : p = .plain ',' → d' ≠ 0 := by
      rintro rfl rfl
      refine h.noComma (q :: qs) [] rfl ?_
      rw [IsPaired, level_cons, hd, Option.bind_some, hd']
    have split : itemsOf place (q :: qs ++ [p]) ++ rest = itemsOf place [q] ++
        (itemsOf (place + q.text.length) qs ++
          (itemsOf (place + (textOf (q :: qs)).length) [p] ++ rest)) := by
      rw [itemsOf_append, List.append_assoc, itemsOf_cons_append]
    have begins := entriesOf_piece (h.genuine q (by simp)) (fun hg => first (.inl hg)) hd
      (fun hq => absurd (.inr hq) first) none place (itemsOf (place + q.text.length) qs ++
        (itemsOf (place + (textOf (q :: qs)).length) [p] ++ rest))
    obtain ⟨last, hinside⟩ := entriesOf_inside (fun r hr => h.genuine r (by simp [hr])) hd' inside
      place (place + q.text.length) (place + q.text.length)
      (itemsOf (place + (textOf (q :: qs)).length) [p] ++ rest)
    rw [split]
    refine begins.trans (hinside.trans ?_)
    rw [entriesOf_piece genuine hlast hclose behind]
    simp [Nat.add_assoc]

theorem entriesOf_loose (hl : ∀ p ∈ ls, IsLoose p) (place : Nat) (rest : List Item) :
    entriesOf 0 none (itemsOf place ls ++ rest) = entriesOf 0 none rest := by
  induction ls generalizing place with
  | nil => rfl
  | cons p ls ih =>
    obtain ⟨hp, hls⟩ := List.forall_mem_cons.mp hl
    rw [itemsOf_cons_append]
    rcases hp with hgap | rfl
    · exact (entriesOf_gap hgap 0 none place _).trans (ih hls _)
    · exact ih hls _

/-- An element ends at a comma, or with the list. -/
theorem entriesOf_tail (hl : ∀ p ∈ ls, IsLoose p) {rest : List Item}
    (hend : rest = [] ∨ .plain ',' ∈ ls) (start stop place : Nat) :
    entriesOf 0 (some (start, stop)) (itemsOf place ls ++ rest) =
      ⟨start, stop, commaIn place ls⟩ :: entriesOf 0 none rest := by
  induction ls generalizing place with
  | nil =>
    obtain rfl := hend.resolve_right List.not_mem_nil
    rfl
  | cons p ls ih =>
    obtain ⟨hp, hls⟩ := List.forall_mem_cons.mp hl
    rw [itemsOf_cons_append]
    by_cases hcomma : p = .plain ','
    · subst hcomma
      have comma : entriesOf 0 (some (start, stop)) (itemsOf place [.plain ','] ++
          (itemsOf (place + 1) ls ++ rest)) =
            ⟨start, stop, some place⟩ :: entriesOf 0 none (itemsOf (place + 1) ls ++ rest) := rfl
      exact comma.trans (congrArg _ (entriesOf_loose hls _ rest))
    · have gap : IsGap p := hp.resolve_right hcomma
      have behind : rest = [] ∨ .plain ',' ∈ ls :=
        hend.imp_right fun hm => (List.mem_cons.mp hm).resolve_left (Ne.symm hcomma)
      rw [commaIn, if_neg hcomma]
      exact (entriesOf_gap gap 0 _ place _).trans (ih hls behind _)

/-- The entries of a list are the elements of its cells. -/
theorem entriesOf_cells {ss : List Cell} (h : AreCells ss) (place : Nat) :
    entriesOf 0 none (itemsOf place (cellPieces ss)) = cellEntries place ss := by
  induction ss generalizing place with
  | nil => rfl
  | cons s ss ih =>
    obtain ⟨hcore, htail, hcomma, hss⟩ := h
    have behind : itemsOf (place + (textOf s.core).length + (textOf s.tail).length)
        (cellPieces ss) = [] ∨ .plain ',' ∈ s.tail := hcomma.imp_left fun hnil => by rw [hnil]; rfl
    rw [cellPieces_cons, itemsOf_append, entriesOf_core hcore, itemsOf_append,
      entriesOf_tail htail behind, ih hss, cellEntries, Cell.entry, Cell.pieces, textOf_append,
      List.length_append, Nat.add_assoc]

/-! ## Cutting a list into cells -/

/-- Loose pieces in front of an element. -/
theorem exists_loose (ps : List Piece) : ∃ ls rest, ps = ls ++ rest ∧ (∀ p ∈ ls, IsLoose p) ∧
    ∀ p ∈ rest.head?, ¬ IsLoose p := by
  induction ps with
  | nil => exact ⟨[], [], rfl, nofun, nofun⟩
  | cons p ps ih =>
    by_cases hp : IsLoose p
    · obtain ⟨ls, rest, rfl, hls, hrest⟩ := ih
      exact ⟨p :: ls, rest, rfl, List.forall_mem_cons.mpr ⟨hp, hls⟩, hrest⟩
    · refine ⟨[], p :: ps, rfl, nofun, ?_⟩
      rintro _ ⟨⟩
      exact hp

/-- Gaps behind an element. -/
theorem exists_gaps_behind (ps : List Piece) : ∃ es gs, ps = es ++ gs ∧ (∀ g ∈ gs, IsGap g) ∧
    (es = [] ∨ ∃ qs p, es = qs ++ [p] ∧ ¬ IsGap p) := by
  induction ps using List.reverseRecOn with
  | nil => exact ⟨[], [], rfl, nofun, .inl rfl⟩
  | append_singleton ps p ih =>
    by_cases hp : IsGap p
    · obtain ⟨es, gs, rfl, hgs, hes⟩ := ih
      exact ⟨es, gs ++ [p], by simp, List.forall_mem_append.mpr ⟨hgs, by simpa using hp⟩, hes⟩
    · exact ⟨ps ++ [p], [], by simp, nofun, .inr ⟨ps, p, rfl, hp⟩⟩

/-- Pieces up to the first comma outside of brackets. -/
theorem exists_of_level {depth : Nat} (h : level depth (marks ps) = some 0) :
    ∃ as bs, ps = as ++ bs ∧ level depth (marks as) = some 0 ∧
      (∀ xs ys, as = xs ++ .plain ',' :: ys → level depth (marks xs) ≠ some 0) ∧
      (bs = [] ∨ ∃ rest, bs = .plain ',' :: rest ∧ IsPaired rest) := by
  induction ps generalizing depth with
  | nil => exact ⟨[], [], rfl, h, fun xs ys hxs => by simp at hxs, .inl rfl⟩
  | cons p ps ih =>
    by_cases hcomma : p = .plain ',' ∧ depth = 0
    · obtain ⟨rfl, rfl⟩ := hcomma
      exact ⟨[], .plain ',' :: ps, rfl, rfl, fun xs ys hxs => by simp at hxs, .inr ⟨ps, rfl, h⟩⟩
    · rw [level_cons] at h
      obtain ⟨d, hd, hrest⟩ := Option.bind_eq_some_iff.mp h
      obtain ⟨as, bs, rfl, hclosed, hnone, hbs⟩ := ih hrest
      refine ⟨p :: as, bs, rfl, ?_, fun xs ys hxs => ?_, hbs⟩
      · rw [level_cons, hd, Option.bind_some, hclosed]
      · cases xs with
        | nil =>
          obtain ⟨rfl, -⟩ := List.cons.inj hxs
          intro hzero
          exact hcomma ⟨rfl, Option.some.inj hzero⟩
        | cons q xs =>
          obtain ⟨rfl, htail⟩ := List.cons.inj hxs
          rw [level_cons, hd, Option.bind_some]
          exact hnone xs ys htail

/-- An element at the start of a list. -/
theorem exists_core (hg : ∀ p ∈ ps, p.IsGenuine) (h : IsPaired ps) (hne : ps ≠ [])
    (hfirst : ∀ p ∈ ps.head?, ¬ IsLoose p) :
    ∃ es gs rest, ps = es ++ (gs ++ rest) ∧ IsCore es ∧ (∀ g ∈ gs, IsGap g) ∧
      (rest = [] ∨ ∃ bs, rest = .plain ',' :: bs ∧ IsPaired bs) := by
  obtain ⟨as, rest, rfl, hclosed, hnone, hrest⟩ := exists_of_level h
  obtain ⟨es, gs, rfl, hgs, hes⟩ := exists_gaps_behind as
  obtain ⟨p, ps, hps⟩ := List.exists_cons_of_ne_nil hne
  have loose : ∀ g ∈ gs, IsLoose g := fun g hgap => .inl (hgs g hgap)
  have filled : es ≠ [] := by
    rintro rfl
    rw [List.nil_append] at hps
    refine hfirst p (by rw [List.nil_append, hps]; rfl) ?_
    cases gs with
    | nil =>
      rcases hrest with rfl | ⟨bs, rfl, -⟩
      · cases hps
      · exact .inr (List.cons.inj hps).1.symm
    | cons g gs =>
      obtain ⟨rfl, -⟩ := List.cons.inj hps
      exact loose g List.mem_cons_self
  refine ⟨es, gs, rest, by simp, ⟨fun q hq => hg q (by simp [hq]), ?_, ?_, ?_, ?_⟩, hgs, hrest⟩
  · -- Gaps do not change the depth.
    obtain ⟨d, hd, hgaps⟩ := Option.bind_eq_some_iff.mp
      ((level_append 0 (marks es) (marks gs)).symm.trans (by rw [← marks_append]; exact hclosed))
    have same := level_loose loose d []
    rw [List.append_nil, hgaps] at same
    rw [IsPaired, hd]
    exact same.symm
  · intro q hq
    refine hfirst q ?_
    cases es with
    | nil => cases hq
    | cons e es => exact hq
  · exact hes.resolve_left filled
  · intro xs ys hxs
    exact hnone xs (ys ++ gs) (by rw [hxs]; simp)

/-- Every list can be cut into cells, behind some loose pieces. -/
theorem exists_cells (hg : ∀ p ∈ body, p.IsGenuine) (h : IsPaired body) :
    ∃ lead ss, body = lead ++ cellPieces ss ∧ (∀ p ∈ lead, IsLoose p) ∧ AreCells ss := by
  induction hn : body.length using Nat.strongRecOn generalizing body with
  | ind n ih =>
    obtain ⟨lead, ps, rfl, hlead, hfirst⟩ := exists_loose body
    by_cases hne : ps = []
    · exact ⟨lead, [], by simp [hne], hlead, trivial⟩
    · have paired : IsPaired ps := by
        rw [IsPaired, ← level_loose hlead]
        exact h
      obtain ⟨es, gs, rest, rfl, hcore, hgs, hrest⟩ := exists_core
        (fun p hp => hg p (List.mem_append_right lead hp)) paired hne hfirst
      have loose : ∀ g ∈ gs, IsLoose g := fun g hgap => .inl (hgs g hgap)
      rcases hrest with rfl | ⟨bs, rfl, hbs⟩
      · exact ⟨lead, [⟨es, gs⟩], by simp, hlead, hcore, loose, .inl rfl, trivial⟩
      · obtain ⟨more, ss, rfl, hmore, hss⟩ := ih bs.length
          (by rw [← hn]; simp; omega) (fun p hp => hg p (by simp [hp])) hbs rfl
        refine ⟨lead, ⟨es, gs ++ .plain ',' :: more⟩ :: ss, by simp, hlead, hcore, ?_,
          .inr (by simp), hss⟩
        exact List.forall_mem_append.mpr ⟨loose, List.forall_mem_cons.mpr ⟨.inr rfl, hmore⟩⟩

/-! ## Texts of elements -/

theorem cellEntries_append (place : Nat) (as bs : List Cell) : cellEntries place (as ++ bs) =
    cellEntries place as ++ cellEntries (place + (textOf (cellPieces as)).length) bs := by
  induction as generalizing place with
  | nil => rfl
  | cons a as ih =>
    rw [List.cons_append, cellEntries, cellEntries, ih, List.cons_append]
    simp [Cell.pieces, Nat.add_assoc]

theorem text_cell (front back : Text) (s : Cell) (ss : List Cell) :
    front ++ (textOf (cellPieces (s :: ss)) ++ back) =
      front ++ (textOf s.core ++ (textOf s.tail ++ (textOf (cellPieces ss) ++ back))) := by
  simp

theorem text_cells (front back : Text) (s : Cell) (ss : List Cell) :
    front ++ (textOf (cellPieces (s :: ss)) ++ back) =
      (front ++ textOf s.pieces) ++ (textOf (cellPieces ss) ++ back) := by
  simp [Cell.pieces]

theorem map_textOf_core (ss : List Cell) :
    (ss.map fun s => textOf s.core) = (ss.map Cell.core).map textOf := by
  rw [List.map_map]
  rfl

/-- The entries of cells, as they are written. -/
theorem map_slice_cellEntries (front back : Text) (ss : List Cell) :
    (cellEntries front.length ss).map
        (fun e => Text.slice (front ++ (textOf (cellPieces ss) ++ back)) e.start e.stop) =
      ss.map fun s => textOf s.core := by
  induction ss generalizing front with
  | nil => rfl
  | cons s ss ih =>
    have rest := ih (front ++ textOf s.pieces)
    rw [List.length_append, ← text_cells] at rest
    rw [cellEntries, List.map_cons, List.map_cons, rest, text_cell]
    exact congrArg (· :: _) (Text.slice_length_add front (textOf s.core) _)

theorem findWithPrevious_eq_none {α : Type} {wanted : α → Bool} {l : List α}
    (h : ∀ a ∈ l, wanted a = false) (previous : Option α) :
    Merge.findWithPrevious wanted previous l = none := by
  induction l generalizing previous with
  | nil => rfl
  | cons a l ih =>
    obtain ⟨ha, hl⟩ := List.forall_mem_cons.mp h
    rw [Merge.findWithPrevious, ha, if_neg Bool.false_ne_true]
    exact ih hl _

theorem findWithPrevious_append {α : Type} {wanted : α → Bool} {as : List α} {a : α}
    (h : ∀ b ∈ as, wanted b = false) (ha : wanted a = true) (previous : Option α) (bs : List α) :
    Merge.findWithPrevious wanted previous (as ++ a :: bs) = some (as.getLast?.or previous, a) := by
  induction as generalizing previous with
  | nil => rw [List.nil_append, Merge.findWithPrevious, if_pos ha]; rfl
  | cons b as ih =>
    obtain ⟨hb, has⟩ := List.forall_mem_cons.mp h
    rw [List.cons_append, Merge.findWithPrevious, hb, if_neg Bool.false_ne_true, ih has]
    cases as with
    | nil => rfl
    | cons c as => rw [List.getLast?_cons_cons, List.getLast?_cons, Option.some_or, Option.some_or]

end SchemaDrift.Code
