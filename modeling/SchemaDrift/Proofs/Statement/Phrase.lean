import SchemaDrift.Proofs.Statement.Closed
import SchemaDrift.Proofs.Statement.Spaced

namespace SchemaDrift.Statement

/-!
# Phrases

What follows the first word of a written definition is a phrase: keywords, names and free texts,
each with one blank in front. A scan for a keyword goes along the parts of a phrase.
-/

/-- The parts, each behind a blank. -/
def phrase (parts : List Text) : Text := parts.flatMap (' ' :: ·)

@[simp] theorem phrase_nil : phrase [] = [] := rfl

@[simp] theorem phrase_cons (p : Text) (ps : List Text) :
    phrase (p :: ps) = ' ' :: (p ++ phrase ps) := rfl

@[simp] theorem phrase_append (ps qs : List Text) : phrase (ps ++ qs) = phrase ps ++ phrase qs :=
  List.flatMap_append

theorem isSpace_blank : IsSpace [' '] := by decide

theorem renders_phrase (ps : List Text) : Renders ps (phrase ps) := by
  induction ps with
  | nil => exact .nil
  | cons p ps ih => exact .cons isSpace_blank ih

theorem isEdge_head_phrase (ps : List Text) : Keyword.isEdge (phrase ps).head? = true :=
  (renders_phrase ps).isEdge_head

open Keyword

variable {keyword : Text} {before : Option Char}

theorem isEdge_blank : isEdge (some ' ') = true := rfl

theorem cut?_phrase_cons_of_free (hk : IsSolid keyword) {p : Text} (hp : Free keyword p)
    (ps : List Text) : cut? keyword before (phrase (p :: ps)) =
      (cut? keyword none (phrase ps)).map fun cut => (' ' :: (p ++ cut.1), cut.2) :=
  cut?_part hk isSpace_blank hp (isEdge_head_phrase ps)

theorem cut?_phrase_eq_none (hk : IsSolid keyword) {ps : List Text}
    (h : ∀ p ∈ ps, Free keyword p) : cut? keyword before (phrase ps) = none :=
  (renders_phrase ps).cut?_eq_none hk h

theorem cut?_phrase (hk : IsSolid keyword) {ps : List Text} (h : ∀ p ∈ ps, Free keyword p)
    (qs : List Text) : cut? keyword before (phrase (ps ++ keyword :: qs)) =
      some (phrase ps ++ [' '], phrase qs) := by
  rw [phrase_append]
  exact (renders_phrase ps).cut?_eq hk h isSpace_blank (isEdge_head_phrase qs)

theorem upTo_phrase_keyword {keywords : List Text} (hk : ∀ k ∈ keywords, IsSolid k)
    (hm : keyword ∈ keywords) (ps : List Text) :
    upTo keywords before (phrase (keyword :: ps)) = [' '] :=
  upTo_keyword hk hm isSpace_blank (isEdge_head_phrase ps)

theorem split_phrase_cons_of_free (hk : IsSolid keyword) {p : Text} (hp : Free keyword p)
    (ps : List Text) : split keyword 0 before (phrase (p :: ps)) =
      Text.prepend (' ' :: p) (split keyword 0 none (phrase ps)) := by
  rw [phrase_cons, split_cons_edge hk isEdge_blank,
    split_append hk (free_iff.mp hp) (isEdge_head_phrase ps)]
  cases split keyword 0 none (phrase ps) <;> rfl

theorem split_phrase_keyword (hk : IsSolid keyword) (ps : List Text) :
    split keyword 0 before (phrase (keyword :: ps)) =
      [' '] :: split keyword 0 none (phrase ps) := by
  rw [phrase_cons, split_cons_edge hk isEdge_blank, split_self hk rfl (isEdge_head_phrase ps)]
  rfl

theorem clean_phrase {t : Text} (h : Clause.IsBody t) {tail : Text}
    (ht : ∀ c ∈ tail, Text.isBlank c = true) : Clause.clean (' ' :: (t ++ tail)) = t := by
  have hblank : ∀ c ∈ [' '], Text.isBlank c = true := by simp
  exact Clause.clean_surrounded h hblank ht

theorem isBody_phrase {w : Text} (hw : Clause.IsBody w) {ps : List Text}
    (h : ∀ p ∈ ps, Clause.IsBody p) : Clause.IsBody (w ++ phrase ps) := by
  induction ps generalizing w with
  | nil => simpa using hw
  | cons p ps ih =>
    have rest := ih (h p List.mem_cons_self) fun q hq => h q (List.mem_cons_of_mem p hq)
    exact hw.append [' '] rest

/-- A phrase of settled parts behind a settled text makes a settled text with it. -/
theorem settled_phrase {w : Text} (hw : Script.Settled w) {ps : List Text}
    (h : ∀ p ∈ ps, Script.Settled p) : Script.Settled (w ++ phrase ps) := by
  induction ps generalizing w with
  | nil => simpa using hw
  | cons p ps ih =>
    have rest := ih (h p List.mem_cons_self) fun q hq => h q (List.mem_cons_of_mem p hq)
    refine ⟨hw.trimmed.append [' '] rest.trimmed, hw.closed.append rest.closed.blank ?_⟩
    rintro _ ⟨⟩
    decide

/-- A clause whose keyword stands in a phrase has the part behind it as its body, up to the keyword
of the next clause. -/
theorem body?_phrase {terminators : List Text} (hk : IsSolid keyword)
    (hts : ∀ k ∈ terminators, IsSolid k) {ps qs : List Text} {body : Text}
    (hps : ∀ p ∈ ps, Free keyword p) (hb : Clause.IsBody body)
    (hfree : ∀ k ∈ terminators, Free k body) (hqs : ∀ k ∈ qs.head?, k ∈ terminators ∧ k ≠ keyword) :
    Clause.body? keyword terminators (phrase (ps ++ keyword :: body :: qs)) = some body := by
  have stop : ∀ c ∈ upTo (terminators.filter (· != keyword)) none (phrase qs),
      Text.isBlank c = true := by
    cases qs with
    | nil => simp [upTo]
    | cons q qs =>
      obtain ⟨hq, hne⟩ := hqs q rfl
      have hm : q ∈ terminators.filter (· != keyword) :=
        List.mem_filter.mpr ⟨hq, by simpa using hne⟩
      rw [upTo_phrase_keyword (fun k hkm => hts k (List.mem_filter.mp hkm).1) hm]
      simp
  rw [phrase_append]
  exact (renders_phrase ps).body?_eq_some hk hts hps isSpace_blank isSpace_blank hb hfree
    (isEdge_head_phrase qs) stop

theorem body?_phrase_eq_none {terminators : List Text} (hk : IsSolid keyword) {ps : List Text}
    (h : ∀ p ∈ ps, Free keyword p) : Clause.body? keyword terminators (phrase ps) = none :=
  (renders_phrase ps).body?_eq_none hk h

end SchemaDrift.Statement
