import SchemaDrift.Code.Bracket
import SchemaDrift.Proofs.Code.Run

namespace SchemaDrift.Code

/-!
# Depth

The items of a text are those of its pieces, each at its place. A part of a text in which every
bracket has its partner is passed over by a search for a closing bracket.
-/

variable {before : Option Char} {c : Char} {t rest : Text} {p : Piece} {ps qs : List Piece}

/-! ## Items of pieces -/

/-- The characters of code that stand for the pieces. -/
def marks (ps : List Piece) : List Char := ps.filterMap Piece.mark?

@[simp] theorem marks_append (ps qs : List Piece) : marks (ps ++ qs) = marks ps ++ marks qs :=
  List.filterMap_append

@[simp] theorem marks_plains (t : Text) : marks (plains t) = t := by
  induction t with
  | nil => rfl
  | cons c t ih => exact congrArg (c :: ·) ih

theorem itemsOf_append (place : Nat) (ps qs : List Piece) :
    itemsOf place (ps ++ qs) = itemsOf place ps ++ itemsOf (place + (textOf ps).length) qs := by
  induction ps generalizing place with
  | nil => simp [itemsOf]
  | cons p ps ih =>
    simp only [List.cons_append, itemsOf, textOf_cons, List.length_append, ← Nat.add_assoc]
    split <;> simp [ih]

theorem map_mark_itemsOf (place : Nat) (ps : List Piece) :
    (itemsOf place ps).map Item.mark = marks ps := by
  induction ps generalizing place with
  | nil => rfl
  | cons p ps ih =>
    simp only [itemsOf, marks]
    split
    · rename_i c hc
      rw [List.map_cons, ih, List.filterMap_cons_some hc]
      rfl
    · rename_i hc
      rw [ih, List.filterMap_cons_none hc]
      rfl

/-- Items stand inside the text of their pieces. -/
theorem bounds_of_mem_itemsOf {place : Nat} {i : Item} (h : i ∈ itemsOf place ps) :
    place ≤ i.start ∧ i.stop ≤ place + (textOf ps).length := by
  induction ps generalizing place with
  | nil => cases h
  | cons p ps ih =>
    have later (hi : i ∈ itemsOf (place + p.text.length) ps) :
        place ≤ i.start ∧ i.stop ≤ place + (textOf (p :: ps)).length := by
      obtain ⟨hstart, hstop⟩ := ih hi
      simp only [textOf_cons, List.length_append]
      omega
    simp only [itemsOf] at h
    split at h
    · rcases List.mem_cons.mp h with rfl | h
      · simp [textOf_cons]
      · exact later h
    · exact later h

/-- Whether every piece has text, so that no two items stand at one place. -/
def Solid (ps : List Piece) : Prop := ∀ p ∈ ps, p.text ≠ []

theorem solid_of_isCut (h : IsCut before ps rest) : Solid ps := by
  induction ps generalizing before with
  | nil => exact fun p hp => absurd hp List.not_mem_nil
  | cons p ps ih =>
    obtain ⟨⟨c, cs, hc, -⟩, hps⟩ := h
    exact List.forall_mem_cons.mpr ⟨by simp [hc], ih hps⟩

theorem lt_stop_of_mem_itemsOf (hs : Solid ps) {place : Nat} {i : Item}
    (h : i ∈ itemsOf place ps) : i.start < i.stop := by
  induction ps generalizing place with
  | nil => cases h
  | cons p ps ih =>
    obtain ⟨hp, hps⟩ := List.forall_mem_cons.mp hs
    have positive : 0 < p.text.length := List.length_pos_iff.mpr hp
    simp only [itemsOf] at h
    split at h
    · rcases List.mem_cons.mp h with rfl | h
      · exact Nat.lt_add_of_pos_right positive
      · exact ih hps h
    · exact ih hps h

section Text

variable (h : pieces 0 none t = ps ++ qs)
include h

theorem solid_left : Solid ps := solid_of_isCut (isCut_of_pieces h).2.1

/-- The items behind the first pieces of a text are those of the other pieces. -/
theorem itemsFrom_of_pieces : itemsFrom t (textOf ps).length = itemsOf (textOf ps).length qs := by
  rw [itemsFrom, items, h, itemsOf_append, Nat.zero_add, List.filter_append]
  have left : (itemsOf 0 ps).filter (fun i => decide ((textOf ps).length ≤ i.start)) = [] := by
    rw [List.filter_eq_nil_iff]
    intro i hi
    have hstop := (bounds_of_mem_itemsOf hi).2
    have hlt := lt_stop_of_mem_itemsOf (solid_left h) hi
    simp only [decide_eq_true_eq]
    omega
  have right : (itemsOf (textOf ps).length qs).filter
      (fun i => decide ((textOf ps).length ≤ i.start)) = itemsOf (textOf ps).length qs := by
    rw [List.filter_eq_self]
    exact fun i hi => by simpa using (bounds_of_mem_itemsOf hi).1
  rw [left, right, List.nil_append]

end Text

theorem exists_of_mem_itemsOf {place : Nat} {i : Item} (h : i ∈ itemsOf place ps) :
    ∃ qs p rest, ps = qs ++ p :: rest ∧ p.mark? = some i.mark ∧
      i.start = place + (textOf qs).length ∧ i.stop = place + (textOf (qs ++ [p])).length := by
  induction ps generalizing place with
  | nil => cases h
  | cons p ps ih =>
    have later (hi : i ∈ itemsOf (place + p.text.length) ps) :
        ∃ qs q rest, p :: ps = qs ++ q :: rest ∧ q.mark? = some i.mark ∧
          i.start = place + (textOf qs).length ∧
            i.stop = place + (textOf (qs ++ [q])).length := by
      obtain ⟨qs, q, rest, rfl, hmark, hstart, hstop⟩ := ih hi
      refine ⟨p :: qs, q, rest, rfl, hmark, ?_, ?_⟩
      · rw [hstart, textOf_cons, List.length_append, Nat.add_assoc]
      · rw [hstop, List.cons_append, textOf_cons, List.length_append, Nat.add_assoc]
    simp only [itemsOf] at h
    split at h
    · rename_i c hc
      rcases List.mem_cons.mp h with rfl | h
      · exact ⟨[], p, ps, rfl, hc, rfl, by simp⟩
      · exact later h
    · exact later h

/-- A place of code lies between two pieces, the second of which is code. -/
theorem exists_of_isCode {place : Nat} (h : isCode t place = true) :
    ∃ ps p qs, pieces 0 none t = ps ++ p :: qs ∧ (textOf ps).length = place ∧
      p.mark?.isSome = true := by
  obtain ⟨i, hi, hstart⟩ := List.any_eq_true.mp h
  obtain ⟨ps, p, qs, hp, hmark, hplace, -⟩ := exists_of_mem_itemsOf hi
  refine ⟨ps, p, qs, hp, ?_, by rw [hmark]; rfl⟩
  rw [← eq_of_beq hstart, hplace, Nat.zero_add]

/-! ## Depth -/

/-- The depth behind some characters of code, unless they close a bracket that was opened before
them. -/
def level (depth : Nat) : List Char → Option Nat
  | [] => some depth
  | c :: cs =>
    if opens c then level (depth + 1) cs
    else if closes c then
      match depth with
      | 0 => none
      | depth + 1 => level depth cs
    else level depth cs

theorem level_append (depth : Nat) (a b : List Char) :
    level depth (a ++ b) = (level depth a).bind fun d => level d b := by
  induction a generalizing depth with
  | nil => rfl
  | cons c a ih =>
    simp only [List.cons_append, level]
    split
    · exact ih _
    · split
      · cases depth with
        | zero => rfl
        | succ depth => exact ih _
      · exact ih _

theorem level_add {depth d : Nat} {a : List Char} (h : level depth a = some d) (k : Nat) :
    level (depth + k) a = some (d + k) := by
  induction a generalizing depth with
  | nil => rw [← Option.some.inj h]; rfl
  | cons c a ih =>
    simp only [level] at h ⊢
    split at h
    · rename_i hopen
      rw [if_pos hopen, Nat.add_right_comm]
      exact ih h
    · rename_i hopen
      rw [if_neg hopen]
      split at h
      · rename_i hclose
        rw [if_pos hclose]
        cases depth with
        | zero => cases h
        | succ depth =>
          rw [Nat.add_right_comm]
          exact ih h
      · rename_i hclose
        rw [if_neg hclose]
        exact ih h

/-- Whether each bracket in the pieces has its partner. -/
def IsPaired (ps : List Piece) : Prop := level 0 (marks ps) = some 0

theorem IsPaired.append (hp : IsPaired ps) (hq : IsPaired qs) : IsPaired (ps ++ qs) := by
  rw [IsPaired, marks_append, level_append, hp, Option.bind_some, hq]

theorem closeFrom_append {depth d : Nat} {a : List Item}
    (h : level depth (a.map Item.mark) = some d)
    (b : List Item) : closeFrom (depth + 1) (a ++ b) = closeFrom (d + 1) b := by
  induction a generalizing depth with
  | nil => rw [← Option.some.inj h]; rfl
  | cons i a ih =>
    simp only [List.map_cons, level, List.cons_append, closeFrom] at h ⊢
    split at h
    · rename_i hopen
      rw [if_pos hopen]
      exact_mod_cast ih h
    · rename_i hopen
      rw [if_neg hopen]
      split at h
      · rename_i hclose
        rw [if_pos hclose]
        cases depth with
        | zero => cases h
        | succ depth =>
          have deep : ¬ ((depth + 1 : Nat) : Int) + 1 = 1 := by omega
          have less : ((depth + 1 : Nat) : Int) + 1 - 1 = depth + 1 := by omega
          rw [if_neg deep, less, ih h]
      · rename_i hclose
        rw [if_neg hclose]
        exact ih h

/-- The bracket that closes an open one stands behind closed pieces. -/
theorem exists_of_closeFrom {depth : Nat} {place close : Nat}
    (h : closeFrom (depth + 1) (itemsOf place ps) = some close) :
    ∃ qs p rest, ps = qs ++ p :: rest ∧ level depth (marks qs) = some 0 ∧
      (∃ c, p.mark? = some c ∧ closes c = true) ∧ close = place + (textOf qs).length := by
  induction ps generalizing depth place with
  | nil => cases h
  | cons p ps ih =>
    have later {d : Nat} (hlevel : ∀ cs, level depth (marks [p] ++ cs) = level d cs)
        (hrest : closeFrom (d + 1) (itemsOf (place + p.text.length) ps) = some close) :
        ∃ qs q rest, p :: ps = qs ++ q :: rest ∧ level depth (marks qs) = some 0 ∧
          (∃ c, q.mark? = some c ∧ closes c = true) ∧ close = place + (textOf qs).length := by
      obtain ⟨qs, q, rest, rfl, hqs, hq, rfl⟩ := ih hrest
      refine ⟨p :: qs, q, rest, rfl, ?_, hq, ?_⟩
      · rw [← List.singleton_append, marks_append, hlevel, hqs]
      · rw [textOf_cons, List.length_append, Nat.add_assoc]
    simp only [itemsOf] at h
    split at h
    · rename_i c hc
      have own : marks [p] = [c] := by simp [marks, hc]
      simp only [closeFrom] at h
      split at h
      · rename_i hopen
        exact later (d := depth + 1) (fun cs => by simp [own, level, hopen]) (by exact_mod_cast h)
      · rename_i hopen
        split at h
        · rename_i hclose
          cases depth with
          | zero =>
            cases h
            exact ⟨[], p, ps, rfl, rfl, ⟨c, hc, hclose⟩, rfl⟩
          | succ depth =>
            have deep : ¬ ((depth + 1 : Nat) : Int) + 1 = 1 := by omega
            have less : ((depth + 1 : Nat) : Int) + 1 - 1 = depth + 1 := by omega
            rw [if_neg deep, less] at h
            exact later (d := depth) (fun cs => by simp [own, level, hopen, hclose]) h
        · rename_i hclose
          exact later (d := depth) (fun cs => by simp [own, level, hopen, hclose]) h
    · rename_i hc
      exact later (d := depth) (fun cs => by simp [marks, hc]) h

end SchemaDrift.Code
