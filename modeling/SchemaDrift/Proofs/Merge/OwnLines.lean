import SchemaDrift.Proofs.Merge.Cutting

namespace SchemaDrift

/-!
# Entries on lines of their own

An entry is commented out just if it stands on lines of its own. What is commented out is gone from
the list, and the lines of the other entries stay as they are: what cannot be commented out now
cannot be commented out behind another entry either.
-/

namespace Code

variable {a b m marker entry t t' t'' name name' : Text} {pre post inner : List Piece}
  {as bs parts parts' : List Part} {close : Char}

/-! ## The rest of a line -/

/-- Whether a text ends in a line of blanks, below another line. -/
def BlankBefore (a : Text) : Prop :=
  ∃ u v, a = u ++ '\n' :: v ∧ '\n' ∉ v ∧ ∀ c ∈ v, Text.isBlank c = true

/-- Whether a text starts with blanks up to the end of a line. -/
def BlankBehind (b : Text) : Prop :=
  ∃ w z, b = w ++ '\n' :: z ∧ '\n' ∉ w ∧ ∀ c ∈ w, Text.isBlank c = true

/-- Only the last line counts. -/
theorem BlankBefore.of_line {x y : Text} (h : BlankBefore (x ++ '\n' :: b)) :
    BlankBefore (y ++ '\n' :: b) := by
  obtain ⟨u, v, hsplit, hv, hblank⟩ := h
  rcases List.append_eq_append_iff.mp hsplit with ⟨k, rfl, hk⟩ | ⟨k, rfl, hk⟩
  · exact ⟨y ++ k, v, by rw [hk, List.append_assoc], hv, hblank⟩
  · cases k with
    | nil => exact ⟨y, v, by rw [← List.nil_append ('\n' :: b), ← hk], hv, hblank⟩
    | cons c k =>
      obtain ⟨-, rfl⟩ := List.cons.inj hk
      exact absurd (by simp) hv

/-- Only the first line counts. -/
theorem BlankBehind.of_line {x y : Text} (h : BlankBehind (a ++ '\n' :: x)) :
    BlankBehind (a ++ '\n' :: y) := by
  obtain ⟨w, z, hsplit, hw, hblank⟩ := h
  rcases List.append_eq_append_iff.mp hsplit with ⟨k, rfl, hk⟩ | ⟨k, rfl, hk⟩
  · cases k with
    | nil => exact ⟨a, y, rfl, by simpa using hw, by simpa using hblank⟩
    | cons c k =>
      obtain ⟨rfl, -⟩ := List.cons.inj hk
      exact absurd (by simp) hw
  · cases k with
    | nil => exact ⟨w, y, by simp, hw, hblank⟩
    | cons c k =>
      obtain ⟨rfl, -⟩ := List.cons.inj hk
      exact ⟨w, k ++ '\n' :: y, by simp, hw, hblank⟩

theorem startsLine_iff (ha : ∃ c ∈ a, Text.isBlank c = false) :
    startsLine (a ++ b) a.length = true ↔ BlankBefore a := by
  constructor
  · intro h
    refine (exists_of_startsLine h).resolve_left fun all => ?_
    obtain ⟨c, hc, hn⟩ := ha
    rw [all c hc] at hn
    cases hn
  · rintro ⟨u, v, rfl, hv, hblank⟩
    rw [startsLine_append hv]
    exact List.all_eq_true.mpr hblank

theorem endsLine_iff (hb : ∃ c ∈ b, Text.isBlank c = false) :
    endsLine (a ++ b) a.length = true ↔ BlankBehind b := by
  constructor
  · intro h
    refine (exists_of_endsLine h).resolve_left fun all => ?_
    obtain ⟨c, hc, hn⟩ := hb
    rw [all c hc] at hn
    cases hn
  · rintro ⟨w, z, rfl, hw, hblank⟩
    rw [endsLine_append hw]
    exact List.all_eq_true.mpr hblank

theorem commentOut?_isSome_iff (ha : ∃ c ∈ a, Text.isBlank c = false)
    (hb : ∃ c ∈ b, Text.isBlank c = false) (marker : Text) :
    (commentOut? (a ++ (m ++ b)) a.length (a ++ m).length marker).isSome = true ↔
      BlankBefore a ∧ BlankBehind b := by
  rw [← startsLine_iff (b := m ++ b) ha, ← endsLine_iff (a := a ++ m) hb, List.append_assoc,
    ← Bool.and_eq_true, commentOut?]
  split
  · rename_i both
    exact iff_of_true rfl both
  · rename_i apart
    exact iff_of_false Bool.false_ne_true apart

/-! ## Entries that can be commented out -/

namespace Listed

/-- An entry can be commented out just if nothing else stands on its lines. -/
theorem exists_removeField_iff (h : Listed t pre (as ++ .group inner :: bs) post close)
    (ha : Alternate false (as ++ .group inner :: bs)) (hreach : Reach inner close post bs m b)
    (hwanted : Merge.isNamed name (Part.group inner).text = true)
    (hbefore : ∀ x ∈ elementsOf as, Merge.isNamed name x = false) (marker : Text) :
    (∃ t', Merge.removeField t name marker = .ok t') ↔
      BlankBefore (textOf (pre ++ .plain '[' :: piecesOf as)) ∧ BlankBehind b := by
  have filled : ∃ c ∈ textOf (pre ++ .plain '[' :: piecesOf as), Text.isBlank c = false :=
    ⟨'[', by simp [Piece.text], by decide⟩
  have lines := commentOut?_isSome_iff (m := m) filled
    ⟨close, hreach.mem, not_blank_of_closes h.framed.closes⟩ marker
  rw [← h.text_reach hreach] at lines
  rw [h.removeField_eq ha hreach hwanted hbefore, ← lines]
  cases commentOut? t (textOf (pre ++ .plain '[' :: piecesOf as)).length
    (textOf (pre ++ .plain '[' :: piecesOf as) ++ m).length marker with
  | none => simp
  | some t' => simp

end Listed

/-! ## Other entries -/

/-- A group beside gaps stands in front of them or behind them. -/
theorem group_cases_of_append {front gaps rest : List Part} (hgaps : elementsOf gaps = [])
    (h : front ++ (gaps ++ rest) = as ++ .group inner :: bs) :
    (∃ k, front = as ++ .group inner :: k ∧ bs = k ++ (gaps ++ rest)) ∨
      ∃ k, rest = k ++ .group inner :: bs ∧ as = front ++ (gaps ++ k) := by
  have noGroup {k l : List Part} (hk : gaps = k ++ .group inner :: l) : False := by
    rw [hk, elementsOf_append] at hgaps
    cases (List.append_eq_nil_iff.mp hgaps).2
  rcases List.append_eq_append_iff.mp h with ⟨k, rfl, hk⟩ | ⟨k, rfl, hk⟩
  · rcases List.append_eq_append_iff.mp hk with ⟨l, rfl, hl⟩ | ⟨l, hgap, hl⟩
    · exact .inr ⟨l, hl, rfl⟩
    · cases l with
      | nil => exact .inr ⟨[], by simpa using hl.symm, by simp [hgap]⟩
      | cons p l =>
        obtain ⟨rfl, -⟩ := List.cons.inj hl
        exact (noGroup hgap).elim
  · cases k with
    | nil =>
      cases gaps with
      | nil => exact .inr ⟨[], by simpa using hk.symm, by simp⟩
      | cons p gaps =>
        obtain ⟨rfl, -⟩ := List.cons.inj hk
        exact (noGroup (k := []) rfl).elim
    | cons p k =>
      obtain ⟨rfl, hbs⟩ := List.cons.inj hk
      exact .inl ⟨k, rfl, hbs⟩

/-- An entry that is closed has its comma in front of what follows. -/
theorem exists_comma (h : Alternate true as) (hclosed : openAfter true as = false) :
    ∃ (gs : List Piece) (cs : List Part), as = gs.map .gap ++ .comma :: cs := by
  obtain ⟨gs, rfl | ⟨cs, rfl⟩⟩ := exists_gaps h
  · rw [openAfter_gaps] at hclosed
    cases hclosed
  · exact ⟨gs, cs, rfl⟩

namespace Listed

/-- Whether an entry can be commented out does not depend on what stands below its lines. -/
theorem exists_removeField_of_above {ks xs ys : List Part}
    (h : Listed t pre (as ++ .group inner :: (ks ++ .gap (.plain '\n') :: xs)) post close)
    (ha : Alternate false (as ++ .group inner :: (ks ++ .gap (.plain '\n') :: xs)))
    (h' : Listed t' pre (as ++ .group inner :: (ks ++ .gap (.plain '\n') :: ys)) post close)
    (ha' : Alternate false (as ++ .group inner :: (ks ++ .gap (.plain '\n') :: ys)))
    (hclosed : openAfter true ks = false)
    (hwanted : Merge.isNamed name (Part.group inner).text = true)
    (hbefore : ∀ x ∈ elementsOf as, Merge.isNamed name x = false)
    (hr : ∃ t'', Merge.removeField t' name marker = .ok t'') :
    ∃ t'', Merge.removeField t name marker = .ok t'' := by
  obtain ⟨gs, cs, rfl⟩ := exists_comma (alternate_append.mp (alternate_append.mp ha).2.2).1 hclosed
  have regroup (ps : List Part) : gs.map .gap ++ .comma :: cs ++ .gap (.plain '\n') :: ps =
      gs.map .gap ++ .comma :: (cs ++ .gap (.plain '\n') :: ps) := by
    simp
  have behind (ps : List Part) : textOf (piecesOf (cs ++ .gap (.plain '\n') :: ps) ++
      .plain close :: post) =
        textOf (piecesOf cs) ++ '\n' :: textOf (piecesOf ps ++ .plain close :: post) := by
    simp [Part.pieces, Piece.text]
  rw [regroup] at h ha h' ha'
  obtain ⟨blankBefore, blankBehind⟩ :=
    (h'.exists_removeField_iff ha' (.comma gs _) hwanted hbefore marker).mp hr
  refine (h.exists_removeField_iff ha (.comma gs _) hwanted hbefore marker).mpr ⟨blankBefore, ?_⟩
  rw [behind] at blankBehind ⊢
  exact blankBehind.of_line

/-- Nor does it depend on what stands above them. -/
theorem exists_removeField_of_below {xs ys ks : List Part}
    (h : Listed t pre (xs ++ ks ++ .group inner :: bs) post close)
    (ha : Alternate false (xs ++ ks ++ .group inner :: bs))
    (h' : Listed t' pre (ys ++ ks ++ .group inner :: bs) post close)
    (ha' : Alternate false (ys ++ ks ++ .group inner :: bs))
    (hxs : ∃ x, textOf (piecesOf xs) = x ++ ['\n']) (hys : ∃ y, textOf (piecesOf ys) = y ++ ['\n'])
    (hwanted : Merge.isNamed name (Part.group inner).text = true)
    (hbefore : ∀ x ∈ elementsOf (xs ++ ks), Merge.isNamed name x = false)
    (hbefore' : ∀ x ∈ elementsOf (ys ++ ks), Merge.isNamed name x = false)
    (hr : ∃ t'', Merge.removeField t' name marker = .ok t'') :
    ∃ t'', Merge.removeField t name marker = .ok t'' := by
  obtain ⟨m, b, hreach⟩ := exists_reach inner close post (alternate_append.mp ha).2.2
  obtain ⟨x, hx⟩ := hxs
  obtain ⟨y, hy⟩ := hys
  have line {zs : List Part} {z : Text} (hz : textOf (piecesOf zs) = z ++ ['\n']) :
      textOf (pre ++ .plain '[' :: piecesOf (zs ++ ks)) =
        textOf (pre ++ [.plain '[']) ++ z ++ '\n' :: textOf (piecesOf ks) := by
    simp [hz]
  obtain ⟨blankBefore, blankBehind⟩ :=
    (h'.exists_removeField_iff ha' hreach hwanted hbefore' marker).mp hr
  refine (h.exists_removeField_iff ha hreach hwanted hbefore marker).mpr ⟨?_, blankBehind⟩
  rw [line hx]
  rw [line hy] at blankBefore
  exact blankBefore.of_line

/-- What can be commented out behind another entry can be commented out before it. -/
theorem exists_removeField_of_cleared (h : Listed t pre parts post close)
    (ha : Alternate false parts) (h' : Listed t' pre parts' post close)
    (hcleared : Cleared entry parts parts') (hn : Merge.isNamed name entry = false)
    (hr : ∃ t'', Merge.removeField t' name marker = .ok t'') :
    ∃ t'', Merge.removeField t name marker = .ok t'' := by
  have ha' := hcleared.alternate ha
  rcases first_wanted_cases (Merge.isNamed name) parts' with none |
    ⟨as, inner, bs, hparts, hwanted, hbefore⟩
  · obtain ⟨t'', hr⟩ := hr
    rw [h'.removeField_of_not_named ha' none] at hr
    cases hr
  rw [hparts] at h' ha'
  cases hcleared with
  | @lines front cut rest gs hfront hcut hline _ =>
    have newline (ps : List Part) : elementsOf (.gap (.plain '\n') :: ps) = elementsOf ps := rfl
    have gaps : elementsOf (.gap (.plain '\n') :: (gs.map .gap ++ [.gap (.plain '\n')])) = [] := by
      rw [newline, elementsOf_append, elementsOf_gaps, newline]
      rfl
    have regrouped : front ++
        (.gap (.plain '\n') :: (gs.map .gap ++ [.gap (.plain '\n')]) ++ rest) =
        as ++ .group inner :: bs := by
      simpa using hparts
    rcases group_cases_of_append gaps regrouped with
      ⟨ks, rfl, rfl⟩ | ⟨ks, rfl, rfl⟩
    · rw [openAfter_append, openAfter] at hfront
      have regroup : as ++ .group inner :: ks ++ .gap (.plain '\n') :: (cut ++ rest) =
          as ++ .group inner :: (ks ++ .gap (.plain '\n') :: (cut ++ rest)) := by
        simp
      rw [regroup] at h ha
      exact h.exists_removeField_of_above ha h' ha' hfront hwanted hbefore hr
    · obtain ⟨x, hx⟩ := hline
      have regroup : front ++ .gap (.plain '\n') :: (cut ++ (ks ++ .group inner :: bs)) =
          front ++ .gap (.plain '\n') :: cut ++ ks ++ .group inner :: bs := by
        simp
      rw [regroup] at h ha
      rw [← List.append_assoc] at h' ha' hbefore
      refine h.exists_removeField_of_below ha h' ha' ?_ ?_ hwanted ?_ hbefore hr
      · exact ⟨textOf (piecesOf (front ++ [.gap (.plain '\n')])) ++ x, by simp [Part.pieces, hx]⟩
      · exact ⟨textOf (piecesOf (front ++ .gap (.plain '\n') :: gs.map .gap)), by
          simp [Part.pieces, Piece.text]⟩
      · have split : elementsOf (front ++ .gap (.plain '\n') :: cut ++ ks) =
            elementsOf front ++ entry :: elementsOf ks := by
          simp [newline, hcut]
        have split' : elementsOf (front ++
            .gap (.plain '\n') :: (gs.map .gap ++ [.gap (.plain '\n')]) ++ ks) =
              elementsOf front ++ elementsOf ks := by
          rw [elementsOf_append, elementsOf_append, gaps, List.append_nil]
        rw [split'] at hbefore
        rw [split]
        intro y hy
        rcases List.mem_append.mp hy with hy | hy
        · exact hbefore y (List.mem_append_left _ hy)
        · rcases List.mem_cons.mp hy with rfl | hy
          · exact hn
          · exact hbefore y (List.mem_append_right _ hy)

end Listed

end Code

namespace Merge

variable {t t' name name' marker : Text} {pre post : List Code.Piece} {parts : List Code.Part}
  {close : Char}

/-- Whether the field cannot be commented out in the text. -/
def Stays (marker t name : Text) : Prop := ∀ t', removeField t name marker ≠ .ok t'

/-- Whether no two entries are for the same field. -/
def Distinct (entries : List Text) : Prop :=
  ((entries.filterMap Code.entryName?).map Path.normal).Nodup

theorem Distinct.sublist {es fs : List Text} (h : Distinct es) (hs : fs.Sublist es) : Distinct fs :=
  List.Nodup.sublist ((hs.filterMap _).map _) h

theorem isNamed_iff {e : Text} :
    isNamed name e = true ↔ ∃ n, Code.entryName? e = some n ∧ Path.normal n = Path.normal name := by
  rw [isNamed, beq_iff_eq, Option.map_eq_some_iff]

/-- Without its first entry a field has none. -/
theorem Distinct.not_named_eraseP {es : List Text} (h : Distinct es) :
    ∀ e ∈ es.eraseP (isNamed name), isNamed name e = false := by
  induction es with
  | nil => simp
  | cons e es ih =>
    have rest : Distinct es := h.sublist (List.sublist_cons_self e es)
    cases hnamed : isNamed name e with
    | false =>
      rw [List.eraseP_cons_of_neg (by simp [hnamed])]
      exact List.forall_mem_cons.mpr ⟨hnamed, ih rest⟩
    | true =>
      rw [List.eraseP_cons_of_pos hnamed]
      obtain ⟨n, hn, hname⟩ := isNamed_iff.mp hnamed
      intro d hd
      rw [Bool.eq_false_iff]
      intro hnamed'
      obtain ⟨n', hn', hname'⟩ := isNamed_iff.mp hnamed'
      rw [Distinct, List.filterMap_cons_some hn, List.map_cons, List.nodup_cons] at h
      refine h.1 (List.mem_map.mpr ⟨n', List.mem_filterMap.mpr ⟨d, hd, hn'⟩, ?_⟩)
      rw [hname', hname]

/-- What is commented out stays so. -/
theorem stays_of_removeField (h : Code.Listed t pre parts post close)
    (ha : Code.Alternate false parts) (hd : Distinct (Code.elementsOf parts)) (hm : '\n' ∉ marker)
    (hr : removeField t name marker = .ok t') : Stays marker t' name := by
  obtain ⟨parts', listed, alternate, helements⟩ := h.removeField ha hm hr
  intro t'' hr'
  rw [listed.removeField_of_not_named alternate
    (by rw [helements]; exact hd.not_named_eraseP)] at hr'
  cases hr'

/-- What cannot be commented out cannot be commented out behind another entry. -/
theorem Stays.removeField (hs : Stays marker t name) (h : Code.Listed t pre parts post close)
    (ha : Code.Alternate false parts) (hm : '\n' ∉ marker)
    (hr : Merge.removeField t name' marker = .ok t') : Stays marker t' name := by
  obtain ⟨parts', entry, hnamed, listed, cleared, -⟩ := h.exists_cleared ha hm hr
  cases hown : isNamed name entry with
  | true =>
    obtain ⟨n, hn, hname⟩ := isNamed_iff.mp hown
    obtain ⟨n', hn', hname'⟩ := isNamed_iff.mp hnamed
    rw [hn] at hn'
    obtain rfl := Option.some.inj hn'
    -- Both names are those of one field.
    have same : Merge.removeField t name marker = Merge.removeField t name' marker := by
      rw [Merge.removeField, Merge.removeField, ← hname, ← hname']
    exact absurd (same.trans hr) (hs t')
  | false =>
    intro t'' hr'
    obtain ⟨t₁, hr₁⟩ := h.exists_removeField_of_cleared ha listed cleared hown ⟨t'', hr'⟩
    exact hs t₁ hr₁

end Merge

end SchemaDrift
