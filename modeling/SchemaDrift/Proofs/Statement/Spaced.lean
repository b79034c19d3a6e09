import SchemaDrift.Proofs.Statement.Standing
import SchemaDrift.Proofs.Text.Trimmed
import SchemaDrift.Statement.Clause

namespace SchemaDrift.Statement

/-!
# Parts between blanks

Whoever writes a statement puts any blanks between its parts. A scan for a keyword goes along the
parts and the blanks in front of them, whatever blanks these are.
-/

open Keyword

/-- Whether the text is a run of blanks, at least one. -/
def IsSpace (t : Text) : Prop := t ≠ [] ∧ ∀ c ∈ t, Text.isBlank c = true

instance (t : Text) : Decidable (IsSpace t) :=
  inferInstanceAs (Decidable (t ≠ [] ∧ ∀ c ∈ t, Text.isBlank c = true))

/-- Whether the text has these parts one after the other, each behind blanks. -/
inductive Renders : List Text → Text → Prop
  | nil : Renders [] []
  | cons {p g t : Text} {ps : List Text} (hg : IsSpace g) (h : Renders ps t) :
      Renders (p :: ps) (g ++ (p ++ t))

variable {keyword a b g p t rest : Text} {ps qs keywords : List Text} {before : Option Char}

theorem isEdge_of_isBlank {c : Char} (h : Text.isBlank c = true) : isEdge (some c) = true := by
  simp [isEdge, h]

theorem IsSpace.isEdge_head (h : IsSpace g) (t : Text) : isEdge (g ++ t).head? = true := by
  obtain ⟨hne, hblank⟩ := h
  cases g with
  | nil => exact absurd rfl hne
  | cons c g => exact isEdge_of_isBlank (hblank c List.mem_cons_self)

namespace Renders

theorem isEdge_head (h : Renders ps t) : isEdge t.head? = true := by
  cases h with
  | nil => rfl
  | cons hg _ => exact hg.isEdge_head _

theorem of_cons (h : Renders (p :: ps) t) :
    ∃ g rest, t = g ++ (p ++ rest) ∧ IsSpace g ∧ Renders ps rest := by
  cases h with
  | cons hg h => exact ⟨_, _, rfl, hg, h⟩

theorem of_append (h : Renders (ps ++ qs) t) : ∃ a b, t = a ++ b ∧ Renders ps a ∧ Renders qs b := by
  induction ps generalizing t with
  | nil => exact ⟨[], t, rfl, .nil, h⟩
  | cons p ps ih =>
    obtain ⟨g, rest, rfl, hg, h⟩ := h.of_cons
    obtain ⟨a, b, rfl, ha, hb⟩ := ih h
    exact ⟨g ++ (p ++ a), b, by simp, ha.cons hg, hb⟩

theorem of_pairs {pairs : List (Text × Text)} (h : ∀ x ∈ pairs, IsSpace x.1) :
    Renders (pairs.map Prod.snd) (pairs.flatMap fun x => x.1 ++ x.2) := by
  induction pairs with
  | nil => exact .nil
  | cons x pairs ih =>
    rw [List.map_cons, List.flatMap_cons, List.append_assoc]
    exact (ih fun y hy => h y (List.mem_cons_of_mem x hy)).cons (h x List.mem_cons_self)

end Renders

/-! ## Keywords -/

/-- A scan passes over blanks. -/
theorem cut?_space (hk : IsSolid keyword) (hg : IsSpace g) (rest : Text) :
    cut? keyword before (g ++ rest) =
      (cut? keyword none rest).map fun cut => (g ++ cut.1, cut.2) := by
  obtain ⟨hne, hblank⟩ := hg
  induction g generalizing before with
  | nil => exact absurd rfl hne
  | cons c g ih =>
    rw [List.cons_append, cut?_cons_edge hk (isEdge_of_isBlank (hblank c List.mem_cons_self))]
    by_cases hne : g = []
    · rw [hne]
      rfl
    · rw [ih hne fun d hd => hblank d (List.mem_cons_of_mem c hd), Option.map_map]
      rfl

theorem cut?_part (hk : IsSolid keyword) (hg : IsSpace g) (hp : Free keyword p)
    (hr : isEdge rest.head? = true) : cut? keyword before (g ++ (p ++ rest)) =
      (cut? keyword none rest).map fun cut => (g ++ (p ++ cut.1), cut.2) := by
  rw [cut?_space hk hg, cut?_append hk (free_iff.mp hp) hr, Option.map_map]
  rfl

theorem cut?_keyword (hk : IsSolid keyword) (hg : IsSpace g) (hr : isEdge rest.head? = true) :
    cut? keyword before (g ++ (keyword ++ rest)) = some (g, rest) := by
  rw [cut?_space hk hg, cut?_self hk rfl hr, Option.map_some, List.append_nil]

theorem Renders.cut?_eq_none (hk : IsSolid keyword) (h : Renders ps t)
    (hps : ∀ p ∈ ps, Free keyword p) : cut? keyword before t = none := by
  induction h generalizing before with
  | nil => rfl
  | cons hg h ih =>
    rw [cut?_part hk hg (hps _ List.mem_cons_self) h.isEdge_head,
      ih fun q hq => hps q (List.mem_cons_of_mem _ hq)]
    rfl

/-- The first part that is the keyword is where the text is cut. -/
theorem Renders.cut?_eq (hk : IsSolid keyword) (ha : Renders ps a) (hps : ∀ p ∈ ps, Free keyword p)
    (hg : IsSpace g) (hr : isEdge rest.head? = true) :
    cut? keyword before (a ++ (g ++ (keyword ++ rest))) = some (a ++ g, rest) := by
  rw [cut?_append hk (ha.cut?_eq_none hk hps) (hg.isEdge_head _), cut?_keyword hk hg hr]
  rfl

/-- A keyword stands in the text just if it is one of the parts, when no other part has it
inside. -/
theorem Renders.occurs_eq (hk : IsSolid keyword) (h : Renders ps t)
    (hps : ∀ p ∈ ps, p ≠ keyword → Free keyword p) : occurs keyword t = decide (keyword ∈ ps) := by
  by_cases hm : keyword ∈ ps
  · obtain ⟨front, back, rfl, hfront⟩ := List.eq_append_cons_of_mem hm
    obtain ⟨a, b, rfl, ha, hb⟩ := h.of_append
    obtain ⟨g, rest, rfl, hg, hrest⟩ := hb.of_cons
    have free : ∀ p ∈ front, Free keyword p := fun p hp =>
      hps p (List.mem_append_left _ hp) fun he => hfront (he ▸ hp)
    rw [occurs, ha.cut?_eq hk free hg hrest.isEdge_head, decide_eq_true hm]
    rfl
  · have free : ∀ p ∈ ps, Free keyword p := fun p hp => hps p hp fun he => hm (he ▸ hp)
    rw [occurs, h.cut?_eq_none hk free, decide_eq_false hm]
    rfl

/-! ## Terminators -/

theorem upTo_space (hk : ∀ k ∈ keywords, IsSolid k) (hg : IsSpace g) (rest : Text) :
    upTo keywords before (g ++ rest) = g ++ upTo keywords none rest := by
  obtain ⟨hne, hblank⟩ := hg
  induction g generalizing before with
  | nil => exact absurd rfl hne
  | cons c g ih =>
    rw [List.cons_append, upTo_cons_edge hk (isEdge_of_isBlank (hblank c List.mem_cons_self))]
    by_cases hne : g = []
    · rw [hne]
      rfl
    · rw [ih hne fun d hd => hblank d (List.mem_cons_of_mem c hd)]
      rfl

theorem upTo_part (hk : ∀ k ∈ keywords, IsSolid k) (hg : IsSpace g) (hp : ∀ k ∈ keywords, Free k p)
    (hr : isEdge rest.head? = true) :
    upTo keywords before (g ++ (p ++ rest)) = g ++ (p ++ upTo keywords none rest) := by
  rw [upTo_space hk hg, upTo_append hk (fun k hkm => free_iff.mp (hp k hkm)) hr]

theorem upTo_keyword (hk : ∀ k ∈ keywords, IsSolid k) (hm : keyword ∈ keywords) (hg : IsSpace g)
    (hr : isEdge rest.head? = true) : upTo keywords before (g ++ (keyword ++ rest)) = g := by
  rw [upTo_space hk hg, upTo_self (hk keyword hm) hm rfl hr, List.append_nil]

/-! ## Clauses -/

/-- The body of a clause reaches over the blanks in front of the next clause. -/
theorem Renders.body?_eq_some {gap body : Text} (hk : IsSolid keyword)
    (hkeywords : ∀ k ∈ keywords, IsSolid k) (ha : Renders ps a) (hps : ∀ p ∈ ps, Free keyword p)
    (hg : IsSpace g) (hgap : IsSpace gap) (hb : Clause.IsBody body)
    (hfree : ∀ k ∈ keywords, Free k body) (hr : isEdge rest.head? = true)
    (hstop : ∀ c ∈ upTo (keywords.filter (· != keyword)) none rest, Text.isBlank c = true) :
    Clause.body? keyword keywords (a ++ (g ++ (keyword ++ (gap ++ (body ++ rest))))) =
      some body := by
  have others : ∀ k ∈ keywords.filter (· != keyword), k ∈ keywords := fun k hkm =>
    (List.mem_filter.mp hkm).1
  have found : Clause.clean (upTo (keywords.filter (· != keyword)) none (gap ++ (body ++ rest))) =
      body := by
    rw [upTo_part (fun k hkm => hkeywords k (others k hkm)) hgap
      (fun k hkm => hfree k (others k hkm)) hr]
    exact Clause.clean_surrounded hb hgap.2 hstop
  have hne : body.isEmpty = false := by simpa using hb.1.ne_nil
  rw [Clause.body?, ha.cut?_eq hk hps hg (hgap.isEdge_head _)]
  simp only [found, hne]
  rfl

theorem Renders.body?_eq_none (hk : IsSolid keyword) (h : Renders ps t)
    (hps : ∀ p ∈ ps, Free keyword p) : Clause.body? keyword keywords t = none := by
  rw [Clause.body?, h.cut?_eq_none hk hps]

end SchemaDrift.Statement
