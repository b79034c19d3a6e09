import SchemaDrift.Proofs.Merge.Remaining
import SchemaDrift.Proofs.Merge.Touched

namespace SchemaDrift.Code

/-!
# The division of a list

The bracket that closes a list, the elements between the brackets, and the end of the declaration
that an element is are found by three searches of their own. They agree on every list: what stands
between the brackets is divided into elements and commas, and an element in parentheses ends as its
entry says.
-/

variable {t : Text} {front rest lead xs ys core : List Piece} {p : Piece} {i : Item} {e f : Entry}
  {ss as bs : List Cell} {s : Cell} {place opening closing : Nat} {close c : Char}

/-- Whether the item is a comma that stands in no bracket, of those that open behind a place. -/
def IsSeparator (t : Text) (opening : Nat) (i : Item) : Prop :=
  i.mark = ',' ∧ level 0 (((items t).filter fun j =>
    decide (opening < j.start ∧ j.start < i.start)).map Item.mark) = some 0

/-- The end of the declaration that an element of a list is: its comma, or the end of the list. -/
def Entry.ending (closing : Nat) (e : Entry) : End :=
  match e.comma with
  | some comma => .separator comma
  | none => .blockClose closing

/-- Whether the entries divide what stands between two brackets. -/
structure Divides (t : Text) (opening closing : Nat) (es : List Entry) : Prop where
  between : ∀ e ∈ es, opening < e.start ∧ e.start < e.stop ∧ e.stop ≤ closing
  ordered : es.Pairwise fun e f => e.stop ≤ f.start
  /-- Code is a comma outside of all entries, or it lies in exactly one of them. -/
  covered : ∀ i ∈ items t, opening < i.start → i.start < closing → Text.isBlank i.mark = false →
    (IsSeparator t opening i ∧ ∀ e ∈ es, i.stop ≤ e.start ∨ e.stop ≤ i.start) ∨
      (¬ IsSeparator t opening i ∧ ∃! e, e ∈ es ∧ e.start ≤ i.start ∧ i.stop ≤ e.stop)
  ends : ∀ e ∈ es, IsGroup t e → declarationEnd? t e.start = some (e.ending closing)

/-! ## Entries of cells -/

theorem Solid.length_pos {ps : List Piece} (h : Solid ps) (hne : ps ≠ []) :
    0 < (textOf ps).length := by
  obtain ⟨p, ps, rfl⟩ := List.exists_cons_of_ne_nil hne
  have own := List.length_pos_of_ne_nil (h p List.mem_cons_self)
  rw [textOf_cons, List.length_append]
  omega

theorem IsCore.ne_nil (h : IsCore core) : core ≠ [] := by
  obtain ⟨qs, p, rfl, -⟩ := h.last
  simp

theorem solid_pieces (t : Text) : Solid (pieces 0 none t) := solid_left (List.append_nil _).symm

theorem IsPaired.of_loose (h : ∀ p ∈ xs, IsLoose p) : IsPaired xs := by
  have closed := level_loose h 0 []
  rwa [List.append_nil] at closed

theorem bounds_of_mem_cellEntries (hss : AreCells ss) (hs : Solid (cellPieces ss))
    (he : e ∈ cellEntries place ss) :
    place ≤ e.start ∧ e.start < e.stop ∧ e.stop ≤ place + (textOf (cellPieces ss)).length := by
  obtain ⟨as, s, bs, rfl, rfl⟩ := exists_of_mem_cellEntries he
  obtain ⟨-, hcore, -⟩ := areCells_append_cons.mp hss
  have filled : 0 < (textOf s.core).length :=
    Solid.length_pos (fun p hp => hs p (by simp [hp])) hcore.ne_nil
  simp only [Cell.entry, cellPieces_append, cellPieces_cons, textOf_append, List.length_append]
  omega

theorem pairwise_cellEntries (hss : AreCells ss) (hs : Solid (cellPieces ss)) :
    (cellEntries place ss).Pairwise fun e f => e.stop ≤ f.start := by
  induction ss generalizing place with
  | nil => exact .nil
  | cons s ss ih =>
    have solid : Solid (cellPieces ss) := fun p hp => hs p (by simp [hp])
    refine List.pairwise_cons.mpr ⟨fun f hf => ?_, ih hss.2.2.2 solid⟩
    have behind := (bounds_of_mem_cellEntries hss.2.2.2 solid hf).1
    simp only [Cell.pieces, textOf_append, List.length_append] at behind
    simp only [Cell.entry]
    omega

theorem isPaired_append_iff (h : IsPaired xs) : IsPaired (xs ++ ys) ↔ IsPaired ys := by
  have closed : level 0 (marks xs) = some 0 := h
  rw [IsPaired, IsPaired, marks_append, level_append, closed, Option.bind_some]

theorem AreCells.left (h : AreCells (as ++ bs)) : AreCells as := by
  induction as with
  | nil => trivial
  | cons a as ih =>
    obtain ⟨hcore, hloose, hcomma, hrest⟩ := h
    refine ⟨hcore, hloose, hcomma.imp_left fun hnil => ?_, ih hrest⟩
    exact (List.append_eq_nil_iff.mp hnil).1

/-- Entries that share a place are the same. -/
theorem eq_of_mem_cellEntries (hss : AreCells ss) (hs : Solid (cellPieces ss))
    (he : e ∈ cellEntries place ss) (hf : f ∈ cellEntries place ss) (hef : e.start < f.stop)
    (hfe : f.start < e.stop) : e = f := by
  by_contra hne
  have apart : (cellEntries place ss).Pairwise fun e f => e.stop ≤ f.start ∨ f.stop ≤ e.start :=
    (pairwise_cellEntries hss hs).imp .inl
  have : Std.Symm fun e f : Entry => e.stop ≤ f.start ∨ f.stop ≤ e.start := ⟨fun _ _ => Or.symm⟩
  rcases apart.forall he hf hne with h | h
  · exact absurd hfe (Nat.not_lt.mpr h)
  · exact absurd hef (Nat.not_lt.mpr h)

/-- A piece of a list belongs to no element and stands in no bracket, or it belongs to an
element. -/
theorem cell_cases (hlead : ∀ q ∈ lead, IsLoose q) (hss : AreCells ss)
    (h : xs ++ p :: ys = lead ++ cellPieces ss) : (IsLoose p ∧ IsPaired xs) ∨
      ∃ as s bs ks ls, ss = as ++ s :: bs ∧ s.core = ks ++ p :: ls ∧
        xs = (lead ++ cellPieces as) ++ ks := by
  induction ss generalizing lead xs with
  | nil =>
    rw [cellPieces_nil, List.append_nil] at h
    subst h
    have loose : ∀ q ∈ xs, IsLoose q := fun q hq => hlead q (by simp [hq])
    exact .inl ⟨hlead p (by simp), IsPaired.of_loose loose⟩
  | cons s ss ih =>
    rcases append_eq_append_cons_cases h.symm with ⟨ks, rfl, -⟩ | ⟨ks, rfl, hcells⟩
    · have loose : ∀ q ∈ xs, IsLoose q := fun q hq => hlead q (by simp [hq])
      exact .inl ⟨hlead p (by simp), IsPaired.of_loose loose⟩
    · rw [cellPieces_cons] at hcells
      rcases append_eq_append_cons_cases hcells with ⟨ls, hcore, -⟩ | ⟨ls, rfl, hrest⟩
      · exact .inr ⟨[], s, ss, ks, ls, rfl, hcore, by simp⟩
      · rcases ih hss.2.1 hss.2.2.2 hrest.symm with ⟨hloose, hpaired⟩ |
          ⟨as, r, bs, ks, ms, rfl, hcore, rfl⟩
        · have front := IsPaired.of_loose hlead
          exact .inl ⟨hloose, front.append (hss.1.closed.append hpaired)⟩
        · exact .inr ⟨s :: as, r, bs, ks, ms, rfl, hcore, by simp⟩

theorem IsLoose.mark_eq {c : Char} (h : IsLoose p) (hmark : p.mark? = some c)
    (hblank : Text.isBlank c = false) : c = ',' := by
  rcases h with hgap | rfl
  · cases p with
    | plain d =>
      obtain rfl := Option.some.inj hmark
      exact absurd (hblank.symm.trans hgap) Bool.false_ne_true
    | literal q u => cases hgap
    | comment u => cases hmark
  · exact (Option.some.inj hmark).symm

/-- A comma in an element stands in a bracket. -/
theorem IsCore.not_isPaired {as bs : List Piece} (h : IsCore core) (hcore : core = as ++ p :: bs)
    (hcomma : p.mark? = some ',') : ¬ IsPaired as := by
  have genuine : p.IsGenuine := h.genuine p (by simp [hcore])
  rw [genuine.eq_comma hcomma] at hcore
  exact h.noComma as bs hcore

/-! ## Items between brackets -/

section Between

variable (h : pieces 0 none t = front ++ ((lead ++ cellPieces ss) ++ rest))
include h

/-- The items between a bracket and a piece behind it. -/
theorem filter_items_of_pieces (hbody : lead ++ cellPieces ss = xs ++ p :: ys)
    (hopening : opening + 1 = (textOf front).length)
    (hi : i.start = (textOf (front ++ xs)).length) :
    (items t).filter (fun j => decide (opening < j.start ∧ j.start < i.start)) =
      itemsOf (textOf front).length xs := by
  have whole : pieces 0 none t = (front ++ xs) ++ (p :: ys ++ rest) := by
    rw [h, hbody]
    simp
  have solid := solid_left whole
  rw [textOf_append, List.length_append] at hi
  rw [items, whole, itemsOf_append, itemsOf_append, Nat.zero_add, Nat.zero_add, List.filter_append,
    List.filter_append]
  have left : (itemsOf 0 front).filter
      (fun j => decide (opening < j.start ∧ j.start < i.start)) = [] := by
    refine List.filter_eq_nil_iff.mpr fun j hj => ?_
    have hlt := lt_stop_of_mem_itemsOf (fun q hq => solid q (List.mem_append_left _ hq)) hj
    have hstop := (bounds_of_mem_itemsOf hj).2
    simp only [decide_eq_true_eq]
    omega
  have middle : (itemsOf (textOf front).length xs).filter
      (fun j => decide (opening < j.start ∧ j.start < i.start)) =
        itemsOf (textOf front).length xs := by
    refine List.filter_eq_self.mpr fun j hj => ?_
    have hlt := lt_stop_of_mem_itemsOf (fun q hq => solid q (List.mem_append_right _ hq)) hj
    obtain ⟨hstart, hstop⟩ := bounds_of_mem_itemsOf hj
    simp only [decide_eq_true_eq]
    omega
  have right : (itemsOf (textOf (front ++ xs)).length (p :: ys ++ rest)).filter
      (fun j => decide (opening < j.start ∧ j.start < i.start)) = [] := by
    refine List.filter_eq_nil_iff.mpr fun j hj => ?_
    have hstart := (bounds_of_mem_itemsOf hj).1
    rw [textOf_append, List.length_append] at hstart
    simp only [decide_eq_true_eq]
    omega
  rw [left, middle, right, List.nil_append, List.append_nil]

theorem isSeparator_iff (hbody : lead ++ cellPieces ss = xs ++ p :: ys)
    (hopening : opening + 1 = (textOf front).length)
    (hi : i.start = (textOf (front ++ xs)).length) :
    IsSeparator t opening i ↔ i.mark = ',' ∧ IsPaired xs := by
  rw [IsSeparator, filter_items_of_pieces h hbody hopening hi, map_mark_itemsOf]
  rfl

/-- The piece of an item between brackets. -/
theorem exists_of_mem_between (hi : i ∈ items t) (hfirst : (textOf front).length ≤ i.start)
    (hlast : i.start < (textOf (front ++ (lead ++ cellPieces ss))).length) :
    ∃ xs p ys, lead ++ cellPieces ss = xs ++ p :: ys ∧ p.mark? = some i.mark ∧
      i.start = (textOf (front ++ xs)).length ∧
        i.stop = (textOf (front ++ xs)).length + p.text.length := by
  obtain ⟨ps, p, qs, hp, hmark, hstart, hstop⟩ := exists_of_mem_items hi
  rw [hp] at h
  have solid : 0 < p.text.length := List.length_pos_of_ne_nil (solid_pieces t p (by rw [hp]; simp))
  rcases append_eq_append_cons_cases h.symm with ⟨ks, rfl, -⟩ | ⟨ks, rfl, hbody⟩
  · simp only [textOf_append, textOf_cons, List.length_append] at hfirst
    omega
  · rcases append_eq_append_cons_cases hbody with ⟨ls, hls, -⟩ | ⟨ls, rfl, -⟩
    · exact ⟨ks, p, ls, hls, hmark, hstart, by rw [hstop]; simp [Nat.add_assoc]⟩
    · simp only [textOf_append, List.length_append] at hstart hlast
      omega

/-- A comma that stands in no bracket lies in no entry. -/
theorem outside_of_isPaired (hlead : ∀ q ∈ lead, IsLoose q) (hss : AreCells ss)
    (hbody : lead ++ cellPieces ss = xs ++ p :: ys) (hxs : IsPaired xs)
    (hcomma : p.mark? = some ',') (he : e ∈ cellEntries (textOf (front ++ lead)).length ss) :
    (textOf (front ++ xs)).length + p.text.length ≤ e.start ∨
      e.stop ≤ (textOf (front ++ xs)).length := by
  obtain ⟨as, s, bs, rfl, rfl⟩ := exists_of_mem_cellEntries he
  obtain ⟨has, hcore, -⟩ := areCells_append_cons.mp hss
  have before : AreCells as := (show AreCells (as ++ s :: bs) from hss).left
  have split : xs ++ p :: ys = (lead ++ cellPieces as) ++
      (s.core ++ (s.tail ++ cellPieces bs)) := by
    rw [← hbody]
    simp
  simp only [Cell.entry]
  rcases append_eq_append_cons_cases split.symm with ⟨ks, hks, -⟩ | ⟨ks, rfl, hrest⟩
  · left
    have length := congrArg (fun ps => (textOf ps).length) hks
    simp only [textOf_append, textOf_cons, List.length_append] at length ⊢
    omega
  · rcases append_eq_append_cons_cases hrest with ⟨ls, hls, -⟩ | ⟨ls, rfl, -⟩
    · exact absurd ((isPaired_append_iff (isPaired_cells hlead before)).mp hxs)
        (hcore.not_isPaired hls hcomma)
    · right
      simp only [textOf_append, List.length_append]
      omega

/-- Code between the brackets is a comma outside of all entries, or it lies in exactly one of
them. -/
theorem covered_of_pieces (hlead : ∀ q ∈ lead, IsLoose q) (hss : AreCells ss)
    (hopening : opening + 1 = (textOf front).length) (hi : i ∈ items t) (hfirst : opening < i.start)
    (hlast : i.start < (textOf (front ++ (lead ++ cellPieces ss))).length)
    (hblank : Text.isBlank i.mark = false) :
    (IsSeparator t opening i ∧ ∀ e ∈ cellEntries (textOf (front ++ lead)).length ss,
      i.stop ≤ e.start ∨ e.stop ≤ i.start) ∨
        (¬ IsSeparator t opening i ∧ ∃! e, e ∈ cellEntries (textOf (front ++ lead)).length ss ∧
          e.start ≤ i.start ∧ i.stop ≤ e.stop) := by
  obtain ⟨xs, p, ys, hbody, hmark, hstart, hstop⟩ := exists_of_mem_between h hi (by omega) hlast
  have separator := isSeparator_iff (i := i) h hbody hopening hstart
  have solid : Solid (cellPieces ss) := fun q hq => solid_pieces t q (by rw [h]; simp [hq])
  rcases cell_cases hlead hss hbody.symm with ⟨hloose, hpaired⟩ |
    ⟨as, s, bs, ks, ls, rfl, hcore, rfl⟩
  · have comma : i.mark = ',' := hloose.mark_eq hmark hblank
    refine .inl ⟨separator.mpr ⟨comma, hpaired⟩, fun e he => ?_⟩
    rw [hstop, hstart]
    exact outside_of_isPaired h hlead hss hbody hpaired (comma ▸ hmark) he
  · obtain ⟨-, own, -⟩ := areCells_append_cons.mp hss
    have paired := isPaired_cells hlead hss.left
    have mem : s.entry ((textOf (front ++ lead)).length + (textOf (cellPieces as)).length) ∈
        cellEntries (textOf (front ++ lead)).length (as ++ s :: bs) := by
      rw [cellEntries_append]
      exact List.mem_append_right _ List.mem_cons_self
    have filled : 0 < p.text.length := List.length_pos_of_ne_nil (solid p (by simp [hcore]))
    have first : (textOf (front ++ lead)).length + (textOf (cellPieces as)).length ≤ i.start := by
      rw [hstart]
      simp only [textOf_append, List.length_append]
      omega
    have last : i.stop ≤ (textOf (front ++ lead)).length + (textOf (cellPieces as)).length +
        (textOf s.core).length := by
      rw [hstop, hcore]
      simp only [textOf_append, textOf_cons, List.length_append]
      omega
    refine .inr ⟨fun hsep => ?_, _, ⟨mem, first, last⟩, fun f ⟨hf, hfstart, hfstop⟩ => ?_⟩
    · obtain ⟨hcomma, hks⟩ := separator.mp hsep
      exact own.not_isPaired hcore (hcomma ▸ hmark) ((isPaired_append_iff paired).mp hks)
    · have inside : i.start < i.stop := by omega
      exact eq_of_mem_cellEntries hss solid hf mem (hfstart.trans_lt (inside.trans_le last))
        (first.trans_lt (inside.trans_le hfstop))

end Between

/-! ## Ends of declarations -/

/-- What stands behind an element ends its declaration. -/
theorem endFrom_tail {post : List Piece} (hss : AreCells (as ++ s :: bs))
    (hclose : closes close = true) :
    endFrom 0 (itemsOf (place + (textOf s.core).length)
        (s.tail ++ (cellPieces bs ++ .plain close :: post))) =
      some ((s.entry place).ending
        (place + (textOf s.core).length + (textOf (s.tail ++ cellPieces bs)).length)) := by
  obtain ⟨-, -, hloose, hcomma, -⟩ := areCells_append_cons.mp hss
  rcases tail_cases hloose with ⟨hnone, hgaps⟩ | ⟨gs, ls, htail, hgs, hgaps⟩
  · obtain rfl := hcomma.resolve_right hnone
    have last : (s.entry place).comma = none := commaIn_of_not_mem hnone _
    simp only [Entry.ending, last, cellPieces_nil, List.append_nil, List.nil_append]
    exact endFrom_close hgaps hclose _
  · have comma := Cell.comma_entry htail hgs place
    rw [textOf_append, List.length_append, ← Nat.add_assoc] at comma
    rw [htail, List.append_assoc, List.cons_append, endFrom_comma hgaps, Entry.ending, comma]

/-- The declaration that an element in parentheses is ends as its entry says. -/
theorem declarationEnd?_of_isGroup {post : List Piece}
    (h : pieces 0 none t = front ++ ((lead ++ cellPieces ss) ++ .plain close :: post))
    (hss : AreCells ss) (hclose : closes close = true)
    (he : e ∈ cellEntries (textOf (front ++ lead)).length ss) (hg : IsGroup t e) :
    declarationEnd? t e.start =
      some (e.ending (textOf (front ++ (lead ++ cellPieces ss))).length) := by
  obtain ⟨as, s, bs, rfl, rfl⟩ := exists_of_mem_cellEntries he
  obtain ⟨-, hcore, -⟩ := areCells_append_cons.mp hss
  obtain ⟨p, core, hs⟩ := List.exists_cons_of_ne_nil hcore.ne_nil
  have start : (textOf (front ++ lead)).length + (textOf (cellPieces as)).length =
      (textOf (front ++ (lead ++ cellPieces as))).length := by simp [Nat.add_assoc]
  have stop : (textOf (front ++ (lead ++ cellPieces as))).length + (textOf s.core).length +
      (textOf (s.tail ++ cellPieces bs)).length =
        (textOf (front ++ (lead ++ cellPieces (as ++ s :: bs)))).length := by
    simp [Nat.add_assoc]
  rw [start] at hg ⊢
  rw [← stop]
  have whole : pieces 0 none t = (front ++ (lead ++ cellPieces as)) ++
      (s.core ++ (s.tail ++ (cellPieces bs ++ .plain close :: post))) := by
    rw [h]
    simp
  generalize front ++ (lead ++ cellPieces as) = before at whole hg ⊢
  have begins := whole
  rw [hs] at begins
  have closed : IsPaired (p :: core) := hs ▸ hcore.closed
  obtain ⟨inner, after, hgroup, hinner, -, hstop⟩ := exists_group begins closed rfl hg
  -- The group is the whole element, since it ends where the entry does.
  rw [← hs] at hgroup
  have solid : Solid (s.core ++ (s.tail ++ (cellPieces bs ++ .plain close :: post))) :=
    fun q hq => solid_pieces t q (by rw [whole]; exact List.mem_append_right _ hq)
  have nothing : after = [] := by
    by_contra hne
    have filled := Solid.length_pos (fun q hq => solid q (by simp [hgroup, hq])) hne
    have length := congrArg (fun ps => (textOf ps).length) hgroup
    simp only [textOf_append, List.length_append] at length
    simp only [Cell.entry, Part.text] at hstop
    omega
  rw [nothing, List.append_nil] at hgroup
  have read : declarationEnd? t (textOf before).length = endFrom 0
      (itemsOf ((textOf before).length + (textOf s.core).length)
        (s.tail ++ (cellPieces bs ++ .plain close :: post))) := by
    rw [declarationEnd?, itemsFrom_of_pieces whole, itemsOf_append, hgroup, endFrom_group hinner]
  exact read.trans (endFrom_tail hss hclose)

/-! ## Lists -/

/-- A bracket of code and the one that matches it are pieces of their own. -/
theorem exists_of_matchingClose {c : Char} (hcode : isCode t opening = true)
    (hopen : t[opening]? = some c) (hc : opens c = true)
    (hclose : matchingClose? t opening = some closing) : ∃ pre body close post,
      pieces 0 none t = pre ++ .plain c :: (body ++ .plain close :: post) ∧ IsPaired body ∧
        closes close = true ∧ opening = (textOf pre).length ∧
          closing = (textOf pre).length + 1 + (textOf body).length := by
  obtain ⟨pre, p, qs, hp, rfl, -⟩ := exists_of_isCode hcode
  have seals : (Piece.plain c).Seals := by
    simp only [opens, Bool.or_eq_true, beq_iff_eq] at hc
    rcases hc with (rfl | rfl) | rfl <;> decide
  obtain rfl := eq_plain_of_getElem? hp hopen seals
  rw [matchingClose?, itemsFrom_of_pieces hp] at hclose
  have search : closeFrom ((0 : Nat) + 1) (itemsOf ((textOf pre).length + 1) qs) =
      some closing := by
    rw [← hclose]
    simp [itemsOf, Piece.mark?, closeFrom, hc, Piece.text]
  obtain ⟨body, q, post, rfl, hbody, ⟨close, hq, hcc⟩, hplace⟩ := exists_of_closeFrom search
  have split : pieces 0 none t = (pre ++ .plain c :: body) ++ q :: post := by
    rw [hp]
    simp
  obtain rfl := eq_plain_of_closes split hq hcc
  exact ⟨pre, body, close, post, hp, hbody, hcc, rfl, hplace⟩

/-- The entries of a list divide what stands between its brackets. -/
theorem divides_entries {c : Char} (hcode : isCode t opening = true) (hopen : t[opening]? = some c)
    (hc : opens c = true) (hclose : matchingClose? t opening = some closing) :
    Divides t opening closing (entries t opening closing) := by
  obtain ⟨pre, body, close, post, hpieces, hbody, hcc, rfl, rfl⟩ :=
    exists_of_matchingClose hcode hopen hc hclose
  obtain ⟨lead, ss, rfl, hlead, hss⟩ := exists_cells
    (fun p hp => isGenuine_of_mem (t := t) (by rw [hpieces]; simp [hp])) hbody
  have inside : pieces 0 none t =
      (pre ++ [.plain c]) ++ ((lead ++ cellPieces ss) ++ .plain close :: post) := by
    rw [hpieces]
    simp
  have length : (textOf pre).length + 1 = (textOf (pre ++ [.plain c])).length := by
    simp [Piece.text]
  have first : (textOf pre).length + 1 + (textOf lead).length =
      (textOf (pre ++ [.plain c] ++ lead)).length := by
    simp [Piece.text]
    omega
  have last : (textOf pre).length + 1 + (textOf (lead ++ cellPieces ss)).length =
      (textOf (pre ++ [.plain c] ++ (lead ++ cellPieces ss))).length := by
    rw [length, textOf_append _ (lead ++ cellPieces ss), List.length_append]
  have cells : Solid (cellPieces ss) := fun p hp => solid_pieces t p (by rw [inside]; simp [hp])
  rw [entries_of_pieces hpieces, itemsOf_append, entriesOf_loose hlead,
    entriesOf_cells hss, first, last]
  refine ⟨fun e he => ?_, pairwise_cellEntries hss cells, fun i hi hfirst hlast hblank =>
    covered_of_pieces inside hlead hss length hi hfirst hlast hblank, fun e he hg =>
    declarationEnd?_of_isGroup inside hss hcc he hg⟩
  obtain ⟨hstart, hfilled, hstop⟩ := bounds_of_mem_cellEntries hss cells he
  simp only [textOf_append, List.length_append] at hstart hstop length ⊢
  omega

/-- A list with an element that is no group, brackets and commas in literals and in comments, and a
last element without a comma. -/
def divided : Text :=
  "f([(\"a\", g(1, [2])), /* ( */ \"]\" + h, // )\n    (\"b\", ',') /* , */\n])\n"

theorem divides_entries_divided : isCode divided 2 = true ∧ divided[2]? = some '[' ∧
    opens '[' = true ∧ matchingClose? divided 2 = some 66 ∧
    entries divided 2 66 = [⟨3, 19, some 19⟩, ⟨29, 36, some 36⟩, ⟨47, 57, none⟩] ∧
    IsGroup divided ⟨3, 19, some 19⟩ ∧ ¬ IsGroup divided ⟨29, 36, some 36⟩ ∧
    IsGroup divided ⟨47, 57, none⟩ ∧ Divides divided 2 66 (entries divided 2 66) := by
  have close : matchingClose? divided 2 = some 66 := by decide +kernel
  refine ⟨by decide +kernel, rfl, rfl, close, by decide +kernel, by decide +kernel,
    by decide +kernel, by decide +kernel, ?_⟩
  exact divides_entries (by decide +kernel) (c := '[') rfl rfl close

end SchemaDrift.Code
