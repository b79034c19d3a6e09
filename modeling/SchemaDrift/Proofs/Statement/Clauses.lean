import SchemaDrift.Proofs.Statement.Phrase
import SchemaDrift.Statement.Read
import SchemaDrift.Statement.Write

namespace SchemaDrift.Statement

/-!
# Written clauses

The clauses of a definition are words with or without a body. Each of them is found again by its
word, whichever of the others are there, as long as no body holds a word that ends a clause.
-/

open Keyword

/-- The words of some clauses, each with its body if it has one. -/
abbrev Clauses := List (Text × Option Text)

namespace Clauses

/-- A clause with a body, if there is one. -/
def optional (keyword : Text) (body : Option Text) : Clauses :=
  body.toList.map fun b => (keyword, some b)

/-- A word that stands for true. -/
def flag (keyword : Text) (present : Bool) : Clauses := if present then [(keyword, none)] else []

def words (cs : Clauses) : List Text := cs.map (·.1)

/-- The words and the bodies, one after the other. -/
def parts (cs : Clauses) : List Text := cs.flatMap fun c => c.1 :: c.2.toList

@[simp] theorem words_cons (c : Text × Option Text) (cs : Clauses) :
    words (c :: cs) = c.1 :: words cs := rfl

@[simp] theorem words_append (cs ds : Clauses) : words (cs ++ ds) = words cs ++ words ds :=
  List.map_append

@[simp] theorem parts_cons (c : Text × Option Text) (cs : Clauses) :
    parts (c :: cs) = c.1 :: (c.2.toList ++ parts cs) := rfl

@[simp] theorem parts_append (cs ds : Clauses) : parts (cs ++ ds) = parts cs ++ parts ds :=
  List.flatMap_append

@[simp] theorem phrase_optional (keyword : Text) (body : Option Text) :
    phrase (parts (optional keyword body)) = clause keyword body := by
  cases body with
  | none => rfl
  | some b => simp [optional, parts, clause]

@[simp] theorem phrase_flag (keyword : Text) (present : Bool) :
    phrase (parts (flag keyword present)) = word keyword present := by
  cases present <;> simp [flag, parts, word]

theorem mem_words_optional {keyword k : Text} {body : Option Text} :
    keyword ∈ words (optional k body) ↔ keyword = k ∧ body.isSome := by
  cases body <;> simp [optional, words]

theorem mem_words_flag {keyword k : Text} {present : Bool} :
    keyword ∈ words (flag k present) ↔ keyword = k ∧ present := by
  cases present <;> simp [flag, words]

theorem words_optional_sublist (keyword : Text) (body : Option Text) :
    (words (optional keyword body)).Sublist [keyword] := by
  cases body with
  | none => exact List.nil_sublist _
  | some b => exact List.Sublist.refl _

theorem words_flag_sublist (keyword : Text) (present : Bool) :
    (words (flag keyword present)).Sublist [keyword] := by
  cases present with
  | false => exact List.nil_sublist _
  | true => exact List.Sublist.refl _

theorem lookup_optional (keyword k : Text) (body : Option Text) :
    (optional k body).lookup keyword = if keyword = k then body.map some else none := by
  cases body with
  | none => simp [optional]
  | some b =>
    by_cases h : keyword = k
    · simp [optional, h]
    · have hk : (keyword == k) = false := by simpa using h
      simp [optional, List.lookup_cons, hk, h]

theorem join_map_some (body : Option Text) : (body.map some).join = body := by
  cases body <;> rfl

theorem lookup_flag (keyword k : Text) (present : Bool) :
    (flag k present).lookup keyword = if keyword = k ∧ present then some none else none := by
  cases present with
  | false => simp [flag]
  | true =>
    by_cases h : keyword = k
    · simp [flag, h]
    · have hk : (keyword == k) = false := by simpa using h
      simp [flag, List.lookup_cons, hk, h]

/-! ## What clauses share -/

variable {P : Text → Prop}

theorem forall_parts {cs : Clauses} (hw : ∀ w ∈ words cs, P w) (hb : ∀ c ∈ cs, ∀ b ∈ c.2, P b) :
    ∀ t ∈ parts cs, P t := by
  intro t ht
  obtain ⟨c, hc, ht⟩ := List.mem_flatMap.mp ht
  rcases List.mem_cons.mp ht with rfl | ht
  · exact hw c.1 (List.mem_map_of_mem hc)
  · exact hb c hc t (Option.mem_toList.mp ht)

theorem forall_append {Q : Text × Option Text → Prop} {cs ds : Clauses} (hc : ∀ c ∈ cs, Q c)
    (hd : ∀ d ∈ ds, Q d) : ∀ c ∈ cs ++ ds, Q c := fun c hm =>
  (List.mem_append.mp hm).elim (hc c) (hd c)

theorem bodies_optional {keyword : Text} {body : Option Text} (h : ∀ b ∈ body, P b) :
    ∀ c ∈ optional keyword body, ∀ b ∈ c.2, P b := by
  intro c hc b hb
  obtain ⟨b', hb', rfl⟩ := List.mem_map.mp hc
  rw [← Option.mem_some_iff.mp hb]
  exact h b' (Option.mem_toList.mp hb')

theorem bodies_flag (keyword : Text) (present : Bool) :
    ∀ c ∈ flag keyword present, ∀ b ∈ c.2, P b := by
  intro c hc b hb
  unfold flag at hc
  split at hc
  · rw [List.mem_singleton.mp hc] at hb
    cases hb
  · cases hc

end Clauses

open Statement.Clauses

variable {keyword : Text} {terminators : List Text}

/-! ## Words that stand for true -/

/-- A keyword that stands in no body is a part just if it is the word of a clause. -/
theorem Clauses.mem_parts_iff (hk : IsSolid keyword) {cs : Clauses}
    (hb : ∀ c ∈ cs, ∀ b ∈ c.2, Free keyword b) : keyword ∈ parts cs ↔ keyword ∈ words cs := by
  constructor
  · intro hp
    obtain ⟨c, hc, hp⟩ := List.mem_flatMap.mp hp
    rcases List.mem_cons.mp hp with rfl | hp
    · exact List.mem_map_of_mem hc
    · exact absurd (hb c hc keyword (Option.mem_toList.mp hp)) (not_free_self hk)
  · intro hw
    obtain ⟨c, hc, rfl⟩ := List.mem_map.mp hw
    exact List.mem_flatMap.mpr ⟨c, hc, List.mem_cons_self⟩

/-- A keyword that stands in no body stands in no part but itself. -/
theorem Clauses.free_of_mem_parts {cs : Clauses} (hw : ∀ w ∈ words cs, IsSolid w)
    (hb : ∀ c ∈ cs, ∀ b ∈ c.2, Free keyword b) : ∀ p ∈ parts cs, p ≠ keyword → Free keyword p :=
  forall_parts (fun w hm hne => free_of_ne (hw w hm) hne) fun c hc b hm _ => hb c hc b hm

/-- A word stands in the phrase just if it is the word of a clause. -/
theorem occurs_clauses (hk : IsSolid keyword) {cs : Clauses} (hw : ∀ w ∈ words cs, IsSolid w)
    (hb : ∀ c ∈ cs, ∀ b ∈ c.2, Free keyword b) {tail : List Text}
    (htail : ∀ q ∈ tail, Free keyword q) :
    occurs keyword (phrase (parts cs ++ tail)) = decide (keyword ∈ words cs) := by
  have free : ∀ p ∈ parts cs ++ tail, p ≠ keyword → Free keyword p := fun p hp hne =>
    (List.mem_append.mp hp).elim (fun hp => free_of_mem_parts hw hb p hp hne) (htail p)
  have absent : keyword ∉ tail := fun hm => not_free_self hk (htail keyword hm)
  rw [(renders_phrase _).occurs_eq hk free, decide_eq_decide, List.mem_append,
    or_iff_left absent, mem_parts_iff hk hb]

/-! ## Bodies -/

theorem body?_phrase_cons_of_free (hk : IsSolid keyword) {p : Text} (hp : Free keyword p)
    (ps : List Text) : Clause.body? keyword terminators (phrase (p :: ps)) =
      Clause.body? keyword terminators (phrase ps) := by
  rw [Clause.body?, Clause.body?, cut?_phrase_cons_of_free hk hp]
  cases cut? keyword none (phrase ps) <;> rfl

theorem body?_phrase_append_of_free (hk : IsSolid keyword) {ps : List Text}
    (hps : ∀ p ∈ ps, Free keyword p) (qs : List Text) :
    Clause.body? keyword terminators (phrase (ps ++ qs)) =
      Clause.body? keyword terminators (phrase qs) := by
  induction ps with
  | nil => rfl
  | cons p ps ih =>
    rw [List.cons_append, body?_phrase_cons_of_free hk (hps p List.mem_cons_self),
      ih fun q hq => hps q (List.mem_cons_of_mem p hq)]

/-- The bodies of the clauses can be told from the clauses: no body holds a word that ends a clause,
and what follows a body starts with such a word. -/
structure Clauses.Legible (terminators : List Text) (cs : Clauses) (tail : List Text) : Prop where
  solid : ∀ w ∈ cs.words, IsSolid w
  nodup : cs.words.Nodup
  isBody : ∀ c ∈ cs, ∀ b ∈ c.2, Clause.IsBody b
  free : ∀ c ∈ cs, ∀ b ∈ c.2, ∀ k ∈ terminators, Free k b
  next : ∀ w ∈ cs.words.tail, w ∈ terminators
  tail : ∀ w ∈ tail.head?, w ∈ terminators

theorem Clauses.Legible.of_cons {c : Text × Option Text} {cs : Clauses} {tail : List Text}
    (h : Legible terminators (c :: cs) tail) : Legible terminators cs tail where
  solid w hw := h.solid w (List.mem_cons_of_mem c.1 hw)
  nodup := (List.nodup_cons.mp h.nodup).2
  isBody d hd := h.isBody d (List.mem_cons_of_mem c hd)
  free d hd := h.free d (List.mem_cons_of_mem c hd)
  next w hw := h.next w (List.mem_of_mem_tail hw)
  tail := h.tail

theorem Clauses.Legible.head {c : Text × Option Text} {cs : Clauses} {tail : List Text}
    (h : Legible terminators (c :: cs) tail) (htail : c.1 ∉ tail) :
    ∀ k ∈ (parts cs ++ tail).head?, k ∈ terminators ∧ k ≠ c.1 := by
  cases cs with
  | nil =>
    intro k hk
    refine ⟨h.tail k hk, ?_⟩
    rintro rfl
    exact htail (List.mem_of_mem_head? hk)
  | cons d ds =>
    rintro _ ⟨⟩
    refine ⟨h.next d.1 List.mem_cons_self, fun he => ?_⟩
    have hmem : c.1 ∈ words (d :: ds) := by simp [he]
    exact (List.nodup_cons.mp h.nodup).1 hmem

theorem body?_clauses (hk : IsSolid keyword) (hts : ∀ k ∈ terminators, IsSolid k) {cs : Clauses}
    {tail : List Text} (h : Legible terminators cs tail)
    (hb : ∀ c ∈ cs, c.1 ≠ keyword → ∀ b ∈ c.2, Free keyword b) (htail : ∀ q ∈ tail, Free keyword q)
    (hword : ∀ c ∈ cs, c.1 = keyword → c.2.isSome) :
    Clause.body? keyword terminators (phrase (parts cs ++ tail)) = (cs.lookup keyword).join := by
  induction cs with
  | nil => exact body?_phrase_eq_none hk htail
  | cons c cs ih =>
    have rest := ih h.of_cons (fun d hd => hb d (List.mem_cons_of_mem c hd))
      fun d hd => hword d (List.mem_cons_of_mem c hd)
    obtain ⟨w, body⟩ := c
    rw [parts_cons, List.cons_append, List.append_assoc]
    by_cases hc : w = keyword
    · subst hc
      obtain ⟨b, rfl⟩ := Option.isSome_iff_exists.mp (hword _ List.mem_cons_self rfl)
      have hnot : w ∉ tail := fun hm => not_free_self hk (htail w hm)
      have hbody := h.isBody _ List.mem_cons_self b rfl
      have hfree := h.free _ List.mem_cons_self b rfl
      have nothing : ∀ p ∈ ([] : List Text), Free w p := by simp
      rw [List.lookup_cons_self]
      exact body?_phrase hk hts nothing hbody hfree (h.head hnot)
    · have hfree : Free keyword w := free_of_ne (h.solid w List.mem_cons_self) hc
      have hbody : ∀ b ∈ body.toList, Free keyword b := fun b hm =>
        hb _ List.mem_cons_self hc b (Option.mem_toList.mp hm)
      have hlookup : (keyword == w) = false := by simpa using Ne.symm hc
      rw [body?_phrase_cons_of_free hk hfree, body?_phrase_append_of_free hk hbody, rest,
        List.lookup_cons, hlookup]

end SchemaDrift.Statement
