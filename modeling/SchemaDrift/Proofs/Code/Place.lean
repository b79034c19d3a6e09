import SchemaDrift.Proofs.Code.Part

namespace SchemaDrift.Code

/-!
# Places of code

Items stand one behind the other, and a search through the items finds the place of one of them. So
the entries of a list and the ends of declarations lie in order inside the text.
-/

variable {t : Text} {i j : Item} {is : List Item}

/-! ## Items -/

theorem exists_of_mem_items (h : i ∈ items t) : ∃ ps p qs, pieces 0 none t = ps ++ p :: qs ∧
    p.mark? = some i.mark ∧ i.start = (textOf ps).length ∧
      i.stop = (textOf (ps ++ [p])).length := by
  simpa using exists_of_mem_itemsOf h

theorem stop_le_length (h : i ∈ items t) : i.stop ≤ t.length := by
  obtain ⟨ps, p, qs, hpieces, -, -, hstop⟩ := exists_of_mem_items h
  have split : pieces 0 none t = (ps ++ [p]) ++ qs := by simpa using hpieces
  rw [hstop, (isCut_of_pieces split).1]
  simp

theorem start_lt_stop (h : i ∈ items t) : i.start < i.stop :=
  lt_stop_of_mem_itemsOf (solid_left (List.append_nil _).symm) h

/-- Of two items the first ends before the second one starts. -/
theorem stop_le_start (hi : i ∈ items t) (hj : j ∈ items t) (h : i.start < j.start) :
    i.stop ≤ j.start := by
  obtain ⟨ps, p, qs, hpieces, -, hstart, hstop⟩ := exists_of_mem_items hi
  have split : pieces 0 none t = (ps ++ [p]) ++ qs := by simpa using hpieces
  rw [items, split, itemsOf_append, List.mem_append] at hj
  rcases hj with hj | hj
  · rw [itemsOf_append, List.mem_append] at hj
    rcases hj with hj | hj
    · have before := (bounds_of_mem_itemsOf hj).2
      have := lt_stop_of_mem_itemsOf (solid_left hpieces) hj
      omega
    · have same : j.start = (textOf ps).length := by
        simp only [itemsOf] at hj
        split at hj
        · rw [List.mem_singleton.mp hj, Nat.zero_add]
        · cases hj
      omega
  · have := (bounds_of_mem_itemsOf hj).1
    omega

/-- A bracket or a separator stands in the text where its item is. -/
theorem getElem?_start (h : i ∈ items t) (hq : i.mark ∉ ['"', '\'']) :
    t[i.start]? = some i.mark := by
  obtain ⟨ps, p, qs, hpieces, hmark, hstart, -⟩ := exists_of_mem_items h
  have split : pieces 0 none t = (ps ++ [p]) ++ qs := by simpa using hpieces
  have cut := (isCut_append_iff.mp (isCut_of_pieces split).2.1).2
  obtain rfl := eq_plain_of_mark? cut hmark hq
  rw [hstart, (isCut_of_pieces hpieces).1]
  simp [Piece.text]

/-- Code that is followed by more code ends with a character that is not blank, unless it is a blank
itself. -/
theorem exists_getElem?_stop (hi : i ∈ items t) (hj : j ∈ items t) (h : i.start < j.start)
    (hb : Text.isBlank i.mark = false) :
    ∃ d, t[i.stop - 1]? = some d ∧ Text.isBlank d = false := by
  have behind := stop_le_start hi hj h
  have long := start_lt_stop hj
  have inside := stop_le_length hj
  obtain ⟨ps, p, qs, hpieces, hmark, hstart, hstop⟩ := exists_of_mem_items hi
  have split : pieces 0 none t = (ps ++ [p]) ++ qs := by simpa using hpieces
  obtain ⟨htext, hcut, -⟩ := isCut_of_pieces split
  have more : textOf qs ≠ [] := by
    intro hq
    rw [htext, hq, List.append_nil] at inside
    omega
  obtain ⟨u, d, htail, hd⟩ : ∃ u d, p.text = u ++ [d] ∧ Text.isBlank d = false := by
    obtain ⟨-, ⟨c, cs, hc, hfirst⟩, -⟩ := isCut_append_iff.mp hcut
    rw [textOf_nil, List.nil_append] at hfirst
    cases p with
    | plain e => exact ⟨[], e, rfl, Option.some.inj hmark ▸ hb⟩
    | comment s => cases hmark
    | literal q s =>
      have ends : EndsPiece (c :: cs) := by
        rcases first_cases _ c (cs ++ textOf qs) with hcomment | ⟨-, hliteral⟩ | ⟨-, -, hplain⟩
        · obtain ⟨s', hs⟩ := exists_comment_of_comment? hcomment
          rw [hfirst] at hs
          cases hs
        · rw [hfirst] at hliteral
          exact endsPiece_of_literal? hliteral hc more
        · rw [hfirst] at hplain
          cases hplain
      obtain ⟨d, hd, u, hu⟩ := ends
      have visible : ∀ d ∈ ['"', '\'', '#', '/'], Text.isBlank d = false := by decide
      exact ⟨u, d, hc.trans hu.symm, visible d hd⟩
  refine ⟨d, ?_, hd⟩
  have front : textOf (ps ++ [p]) = textOf ps ++ u ++ [d] := by simp [htail]
  have place : i.stop - 1 = (textOf ps ++ u).length := by
    rw [hstop, front]
    simp
  rw [htext, front, place, List.append_assoc, List.getElem?_append_right (Nat.le_refl _)]
  simp

/-! ## Searches -/

theorem mem_items_of_mem_itemsFrom {place : Nat} (h : i ∈ itemsFrom t place) :
    i ∈ items t ∧ place ≤ i.start := by
  obtain ⟨hi, hle⟩ := List.mem_filter.mp h
  exact ⟨hi, of_decide_eq_true hle⟩

theorem exists_mem_of_closeFrom {depth : Int} {place : Nat} (h : closeFrom depth is = some place) :
    ∃ i ∈ is, i.start = place ∧ closes i.mark = true := by
  induction is generalizing depth with
  | nil => cases h
  | cons i is ih =>
    have later {depth : Int} (h : closeFrom depth is = some place) :
        ∃ j ∈ i :: is, j.start = place ∧ closes j.mark = true := by
      obtain ⟨j, hj, hplace⟩ := ih h
      exact ⟨j, List.mem_cons_of_mem i hj, hplace⟩
    simp only [closeFrom] at h
    split at h
    · exact later h
    · split at h
      · rename_i hclose
        split at h
        · exact ⟨i, List.mem_cons_self, Option.some.inj h, hclose⟩
        · exact later h
      · exact later h

theorem exists_of_matchingClose? {opening closing : Nat}
    (h : matchingClose? t opening = some closing) :
    ∃ i ∈ items t, i.start = closing ∧ closes i.mark = true := by
  obtain ⟨i, hi, hplace⟩ := exists_mem_of_closeFrom h
  exact ⟨i, (mem_items_of_mem_itemsFrom hi).1, hplace⟩

theorem exists_mem_of_endFrom {depth : Int} {e : End} (h : endFrom depth is = some e) :
    ∃ i ∈ is, e = .separator i.start ∨ e = .body i.start ∨
      (e = .blockClose i.start ∧ closes i.mark = true) := by
  induction is generalizing depth with
  | nil => cases h
  | cons i is ih =>
    have later {depth : Int} (h : endFrom depth is = some e) :
        ∃ j ∈ i :: is, e = .separator j.start ∨ e = .body j.start ∨
          (e = .blockClose j.start ∧ closes j.mark = true) := by
      obtain ⟨j, hj, hplace⟩ := ih h
      exact ⟨j, List.mem_cons_of_mem i hj, hplace⟩
    simp only [endFrom] at h
    split at h
    · exact ⟨i, List.mem_cons_self, .inl (Option.some.inj h).symm⟩
    · split at h
      · exact later h
      · split at h
        · rename_i hclose
          split at h
          · exact ⟨i, List.mem_cons_self, .inr (.inr ⟨(Option.some.inj h).symm, hclose⟩)⟩
          · split at h
            · exact ⟨i, List.mem_cons_self, .inr (.inl (Option.some.inj h).symm)⟩
            · exact later h
        · exact later h

/-! ## Entries -/

/-- An entry starts and stops with items, unless it was read in part before. -/
theorem exists_mem_of_mem_entriesOf {depth : Int} {current : Option (Nat × Nat)} {e : Entry}
    (h : e ∈ entriesOf depth current is) :
    ((∃ i ∈ is, e.start = i.start) ∨ ∃ c ∈ current, e.start = c.1) ∧
      ((∃ i ∈ is, Text.isBlank i.mark = false ∧ e.stop = i.stop) ∨
        ∃ c ∈ current, e.stop = c.2) := by
  induction is generalizing depth current with
  | nil =>
    obtain ⟨c, hc, rfl⟩ := Option.map_eq_some_iff.mp (Option.mem_toList.mp h)
    exact ⟨.inr ⟨c, hc, rfl⟩, .inr ⟨c, hc, rfl⟩⟩
  | cons i is ih =>
    have later {P : Item → Prop} (h : ∃ j ∈ is, P j) : ∃ j ∈ i :: is, P j := by
      obtain ⟨j, hj, hp⟩ := h
      exact ⟨j, List.mem_cons_of_mem i hj, hp⟩
    simp only [entriesOf] at h
    split at h
    · rcases List.mem_append.mp h with h | h
      · obtain ⟨c, hc, rfl⟩ := Option.map_eq_some_iff.mp (Option.mem_toList.mp h)
        exact ⟨.inr ⟨c, hc, rfl⟩, .inr ⟨c, hc, rfl⟩⟩
      · obtain ⟨hstart, hstop⟩ := ih h
        have nothing {P : Nat × Nat → Prop} : ¬ ∃ c ∈ (none : Option (Nat × Nat)), P c := by simp
        exact ⟨.inl (later (hstart.resolve_right nothing)),
          .inl (later (hstop.resolve_right nothing))⟩
    · split at h
      · obtain ⟨hstart, hstop⟩ := ih h
        exact ⟨hstart.imp_left later, hstop.imp_left later⟩
      · rename_i hblank
        obtain ⟨hstart, hstop⟩ := ih h
        constructor
        · rcases hstart with hstart | ⟨c, hc, he⟩
          · exact .inl (later hstart)
          · cases Option.mem_some_iff.mp hc
            cases current with
            | none => exact .inl ⟨i, List.mem_cons_self, he⟩
            | some c => exact .inr ⟨c, rfl, he⟩
        · rcases hstop with hstop | ⟨c, hc, he⟩
          · exact .inl (later hstop)
          · cases Option.mem_some_iff.mp hc
            exact .inl ⟨i, List.mem_cons_self, by simpa using hblank, he⟩

section Entries

variable {opening closing : Nat} {e : Entry}

/-- An entry stops in front of the closing bracket, behind a character that is not blank. -/
theorem stop_of_mem_entries (hclose : matchingClose? t opening = some closing)
    (h : e ∈ entries t opening closing) :
    e.stop ≤ closing ∧ closing < t.length ∧ 0 < e.stop ∧
      ∃ d, t[e.stop - 1]? = some d ∧ Text.isBlank d = false := by
  obtain ⟨j, hj, rfl, -⟩ := exists_of_matchingClose? hclose
  obtain ⟨i, hi, hblank, hstop⟩ := (exists_mem_of_mem_entriesOf h).2.resolve_right nofun
  have earlier : i.start < j.start := by
    simpa using List.mem_takeWhile_imp (p := fun k : Item => decide (k.start < j.start)) hi
  obtain ⟨hi, -⟩ := mem_items_of_mem_itemsFrom ((List.takeWhile_sublist _).subset hi)
  have positive := start_lt_stop hi
  rw [hstop]
  exact ⟨stop_le_start hi hj earlier, (start_lt_stop hj).trans_le (stop_le_length hj), by omega,
    exists_getElem?_stop hi hj earlier hblank⟩

end Entries

end SchemaDrift.Code
