import SchemaDrift.Proofs.Text.Squeezed

namespace SchemaDrift

/-!
# Clauses up to runs of blanks

Keywords hold no blank and stand beside blanks of any number. So the clauses of a squeezed text are
the clauses of the text, squeezed.
-/

open Text (squeeze trimStart trimEnd squeeze_cons_of_blank squeeze_cons_of_not_blank
  trimStart_cons_of_blank trimStart_cons_of_not_blank isBlank_space)

namespace Keyword

theorem isEdge_of_isBlank {c : Char} (hc : Text.isBlank c = true) : isEdge (some c) = true := by
  simp [isEdge, hc]

theorem isEdge_head?_squeeze (t : Text) : isEdge (squeeze t).head? = isEdge t.head? := by
  rw [Text.head?_squeeze]
  cases t with
  | nil => rfl
  | cons c cs =>
    simp only [List.head?_cons, Option.map_some]
    split
    · rename_i hc
      rw [isEdge_of_isBlank hc, isEdge_of_isBlank isBlank_space]
    · rfl

variable {keyword : Text}

theorem standing?_squeeze (hk : IsSolid keyword) (before : Option Char) (t : Text) :
    standing? keyword before (squeeze t) = (standing? keyword before t).map squeeze := by
  rw [standing?, standing?, Text.stripStart_squeeze fun c hc => hk.isBlank_eq_false hc]
  split
  · cases Text.stripStart keyword t with
    | none => rfl
    | some rest =>
      simp only [Option.map_some, Option.filter_some, isEdge_head?_squeeze]
      split <;> rfl
  · rfl

/-! ## Cutting at a keyword -/

theorem cut?_trimStart (hk : IsSolid keyword) (t : Text) :
    cut? keyword none (trimStart t) = (cut? keyword none t).map (Prod.map trimStart id) := by
  induction t with
  | nil => rfl
  | cons c cs ih =>
    cases hc : Text.isBlank c with
    | true =>
      rw [trimStart_cons_of_blank _ hc, ih, cut?_cons_edge hk (isEdge_of_isBlank hc),
        Option.map_map]
      congr 1
      funext cut
      exact congrArg (·, cut.2) (trimStart_cons_of_blank cut.1 hc).symm
    | false =>
      rw [trimStart_cons_of_not_blank _ hc, cut?]
      cases standing? keyword none (c :: cs) with
      | some rest => rfl
      | none =>
        simp only [Option.map_map]
        congr 1
        funext cut
        exact congrArg (·, cut.2) (trimStart_cons_of_not_blank cut.1 hc).symm

theorem cut?_squeeze (hk : IsSolid keyword) (before : Option Char) (t : Text) :
    cut? keyword before (squeeze t) = (cut? keyword before t).map (Prod.map squeeze squeeze) := by
  induction t generalizing before with
  | nil => rfl
  | cons c cs ih =>
    cases hc : Text.isBlank c with
    | true =>
      rw [squeeze_cons_of_blank hc, cut?_cons_edge hk (isEdge_of_isBlank isBlank_space),
        cut?_trimStart hk, ih, cut?_cons_edge hk (isEdge_of_isBlank hc)]
      simp only [Option.map_map]
      congr 1
      funext cut
      exact congrArg (·, squeeze cut.2) (squeeze_cons_of_blank hc cut.1).symm
    | false =>
      have here := standing?_squeeze hk before (c :: cs)
      rw [squeeze_cons_of_not_blank hc] at here ⊢
      rw [cut?, cut?, here]
      cases standing? keyword before (c :: cs) with
      | some rest => rfl
      | none =>
        simp only [Option.map_none, ih, Option.map_map]
        congr 1
        funext cut
        exact congrArg (·, squeeze cut.2) (squeeze_cons_of_not_blank hc cut.1).symm

theorem occurs_squeeze (hk : IsSolid keyword) (t : Text) :
    occurs keyword (squeeze t) = occurs keyword t := by
  rw [occurs, cut?_squeeze hk, Option.isSome_map, occurs]

/-! ## The text up to a keyword -/

section UpTo

variable {keywords : List Text} (hks : ∀ k ∈ keywords, IsSolid k)

include hks

theorem upTo_trimStart (t : Text) :
    upTo keywords none (trimStart t) = trimStart (upTo keywords none t) := by
  induction t with
  | nil => rfl
  | cons c cs ih =>
    cases hc : Text.isBlank c with
    | true =>
      rw [trimStart_cons_of_blank _ hc, ih, upTo_cons_edge hks (isEdge_of_isBlank hc),
        trimStart_cons_of_blank _ hc]
    | false =>
      rw [trimStart_cons_of_not_blank _ hc, upTo]
      split
      · rfl
      · exact (trimStart_cons_of_not_blank _ hc).symm

theorem upTo_squeeze (before : Option Char) (t : Text) :
    upTo keywords before (squeeze t) = squeeze (upTo keywords before t) := by
  induction t generalizing before with
  | nil => rfl
  | cons c cs ih =>
    cases hc : Text.isBlank c with
    | true =>
      rw [squeeze_cons_of_blank hc, upTo_cons_edge hks (isEdge_of_isBlank isBlank_space),
        upTo_trimStart hks, ih, upTo_cons_edge hks (isEdge_of_isBlank hc), squeeze_cons_of_blank hc]
    | false =>
      have same : (keywords.any fun k => (standing? k before (c :: squeeze cs)).isSome) =
          keywords.any fun k => (standing? k before (c :: cs)).isSome := by
        rw [Bool.eq_iff_iff, List.any_eq_true, List.any_eq_true]
        refine exists_congr fun k => and_congr_right fun hk => ?_
        have here := standing?_squeeze (hks k hk) before (c :: cs)
        rw [squeeze_cons_of_not_blank hc] at here
        rw [here, Option.isSome_map]
      rw [squeeze_cons_of_not_blank hc, upTo, upTo, same, ih]
      split
      · rfl
      · exact (squeeze_cons_of_not_blank hc _).symm

end UpTo

/-! ## Splitting at a keyword -/

theorem split_of_standing? (hk : IsSolid keyword) {before : Option Char} {t rest : Text}
    (h : standing? keyword before t = some rest) :
    split keyword 0 before t = [] :: split keyword 0 none rest := by
  have ht := append_of_standing? h
  unfold standing? at h
  split at h
  · rename_i hb
    rw [ht]
    exact split_self hk hb (Option.filter_eq_some_iff.mp h).2
  · cases h

theorem split_of_standing?_eq_none {before : Option Char} {c : Char} {cs : Text}
    (h : standing? keyword before (c :: cs) = none) :
    split keyword 0 before (c :: cs) = Text.consHead c (split keyword 0 (some c) cs) := by
  rw [split, h]
  rfl

theorem split_cons_of_blank (hk : IsSolid keyword) {c : Char} (hc : Text.isBlank c = true)
    (before : Option Char) (cs : Text) :
    split keyword 0 before (c :: cs) = Text.consHead c (split keyword 0 none cs) := by
  rw [split_cons_edge hk (isEdge_of_isBlank hc)]
  cases split keyword 0 none cs <;> rfl

theorem split_trimStart (hk : IsSolid keyword) (t : Text) :
    split keyword 0 none (trimStart t) = (split keyword 0 none t).modifyHead trimStart := by
  induction t with
  | nil => rfl
  | cons c cs ih =>
    cases hc : Text.isBlank c with
    | true =>
      rw [trimStart_cons_of_blank _ hc, ih, split_cons_of_blank hk hc,
        Text.modifyHead_consHead_of_blank hc (split_ne_nil keyword 0 none cs)]
    | false =>
      rw [trimStart_cons_of_not_blank _ hc]
      cases hs : standing? keyword none (c :: cs) with
      | some rest =>
        rw [split_of_standing? hk hs]
        rfl
      | none =>
        rw [split_of_standing?_eq_none hs, Text.modifyHead_consHead_of_not_blank hc]

theorem split_squeeze (hk : IsSolid keyword) (before : Option Char) (t : Text) :
    split keyword 0 before (squeeze t) = (split keyword 0 before t).map squeeze := by
  -- A keyword is passed over as a whole, so the induction is on the length of the text.
  induction hn : t.length using Nat.strong_induction_on generalizing before t with
  | _ n ih =>
    cases t with
    | nil => rfl
    | cons c cs =>
      have here := standing?_squeeze hk before (c :: cs)
      cases hs : standing? keyword before (c :: cs) with
      | some rest =>
        have shorter : rest.length < n := by
          have := congrArg List.length (append_of_standing? hs)
          have := List.length_pos_iff.mpr hk.1
          simp only [List.length_append] at *
          omega
        rw [hs] at here
        rw [split_of_standing? hk here, split_of_standing? hk hs, ih _ shorter none rest rfl]
        rfl
      | none =>
        have shorter : cs.length < n := by simp [← hn]
        cases hc : Text.isBlank c with
        | true =>
          rw [squeeze_cons_of_blank hc, split_cons_of_blank hk isBlank_space, split_trimStart hk,
            ih _ shorter none cs rfl, split_cons_of_blank hk hc,
            Text.map_squeeze_consHead_of_blank hc]
        | false =>
          rw [hs, squeeze_cons_of_not_blank hc] at here
          rw [squeeze_cons_of_not_blank hc, split_of_standing?_eq_none here,
            split_of_standing?_eq_none hs, ih _ shorter (some c) cs rfl,
            Text.map_squeeze_consHead_of_not_blank hc]

end Keyword

/-! ## Permissions -/

namespace Permissions

/-- The permissions with a function applied to each expression. -/
def map (f : Text → Text) (p : Permissions) : Permissions :=
  ⟨p.select.map f, p.create.map f, p.update.map f, p.delete.map f⟩

@[simp] theorem get_map (f : Text → Text) (p : Permissions) (op : Operation) :
    (p.map f).get op = (p.get op).map f := by cases op <;> rfl

theorem map_setAll (f : Text → Text) (p : Permissions) (ops : List Operation) (expr : Text) :
    (p.setAll ops expr).map f = (p.map f).setAll ops (f expr) := by
  induction ops generalizing p with
  | nil => rfl
  | cons op ops ih =>
    have step : (p.set op expr).map f = (p.map f).set op (f expr) := by cases op <;> rfl
    rw [setAll, List.foldl_cons]
    exact (ih _).trans (congrArg (·.setAll ops (f expr)) step)

end Permissions

namespace Clause

theorem isBlank_of_isAlpha {c : Char} (h : c.isAlpha = true) : Text.isBlank c = false := by
  have range := isAlphanum_iff.mp (by simp [Char.isAlphanum, h] : c.isAlphanum = true)
  exact Text.isBlank_eq_false_of_toNat (by omega)

theorem clean_squeeze (t : Text) : clean (squeeze t) = squeeze (clean t) := by
  have semicolon (c : Char) (h : (c == ';') = true) : Text.isBlank c = false := by
    rw [beq_iff_eq] at h
    subst h
    rfl
  rw [clean, Text.trim_squeeze, Text.dropEndWhile_squeeze semicolon, Text.trimEnd_squeeze, clean]

theorem body?_squeeze {keyword : Text} {terminators : List Text} (hk : Keyword.IsSolid keyword)
    (hts : ∀ k ∈ terminators, Keyword.IsSolid k) (t : Text) :
    body? keyword terminators (squeeze t) = (body? keyword terminators t).map squeeze := by
  have others : ∀ k ∈ terminators.filter (· != keyword), Keyword.IsSolid k := fun k hkm =>
    hts k (List.mem_filter.mp hkm).1
  rw [body?, body?, Keyword.cut?_squeeze hk]
  cases Keyword.cut? keyword none t with
  | none => rfl
  | some cut =>
    simp only [Option.map_some, Prod.map_snd, Keyword.upTo_squeeze others, clean_squeeze,
      Text.isEmpty_squeeze]
    split <;> rfl

/-- A list of operations goes on behind a comma. -/
theorem operations_eq (t : Text) : operations t =
    match Operation.ofKeyword? (t.takeWhile Char.isAlpha) with
    | none => ([], t)
    | some op =>
      match trimStart (t.dropWhile Char.isAlpha) with
      | ',' :: rest => Prod.map (op :: ·) id (operations (trimStart rest))
      | rest => ([op], rest) := by
  rw [operations]
  cases Operation.ofKeyword? (t.takeWhile Char.isAlpha) with
  | none => rfl
  | some op =>
    generalize trimStart (t.dropWhile Char.isAlpha) = u
    cases u with
    | nil => rfl
    | cons c cs =>
      by_cases hc : c = ','
      · subst hc
        rfl
      · simp [hc]

theorem operations_squeeze (t : Text) :
    operations (squeeze t) = Prod.map id squeeze (operations t) := by
  have alpha (c : Char) (h : c.isAlpha = true) : Text.isBlank c = false := isBlank_of_isAlpha h
  have behind (t : Text) : trimStart ((squeeze t).dropWhile Char.isAlpha) =
      squeeze (trimStart (t.dropWhile Char.isAlpha)) := by
    rw [Text.dropWhile_squeeze alpha, Text.trimStart_squeeze]
  induction t using operations.induct with
  | case1 t h =>
    rw [operations_eq, Text.takeWhile_squeeze alpha, operations_eq, h]
    rfl
  | case2 t op h rest hr _ _ _ ih =>
    have comma : squeeze (',' :: rest) = ',' :: squeeze rest := squeeze_cons_of_not_blank rfl rest
    rw [operations_eq, Text.takeWhile_squeeze alpha, behind, operations_eq, h, hr, comma]
    simp only [Text.trimStart_squeeze, ih]
    rfl
  | case3 t op h hcomma =>
    have other : ∀ rest, squeeze (trimStart (t.dropWhile Char.isAlpha)) ≠ ',' :: rest := by
      intro rest hr
      have head := Text.head?_squeeze (trimStart (t.dropWhile Char.isAlpha))
      cases hu : trimStart (t.dropWhile Char.isAlpha) with
      | nil => simp [hu] at hr
      | cons c cs =>
        rw [hr, hu, List.head?_cons, List.head?_cons, Option.map_some, Option.some.injEq] at head
        split at head
        · exact absurd head (by decide)
        · exact hcomma cs (by rw [hu, head])
    rw [operations_eq, Text.takeWhile_squeeze alpha, behind, operations_eq, h]
    simp only
    rfl

theorem grant_squeeze (p : Permissions) (clause : Text) :
    grant (p.map squeeze) (squeeze clause) = (grant p clause).map squeeze := by
  have comma (c : Char) (h : (c == ',') = true) : Text.isBlank c = false := by
    rw [beq_iff_eq] at h
    subst h
    rfl
  simp only [grant, Text.trim_squeeze, Text.dropEndWhile_squeeze comma, Text.trimEnd_squeeze,
    operations_squeeze, Prod.map_fst, Prod.map_snd, id, Text.isEmpty_squeeze]
  split
  · rfl
  · rw [Permissions.map_setAll]

theorem sameLetters_squeeze {word : Text} (hw : ∀ c ∈ word, Text.isBlank c.toLower = false)
    (t : Text) : Text.sameLetters (squeeze t) word = Text.sameLetters t word := by
  by_cases ht : ∀ c ∈ t, Text.isBlank c = false
  · rw [Text.squeeze_of_forall ht]
  · -- A text with a blank has other letters than the word, squeezed or not.
    have other (s : Text) (hs : ∃ c ∈ s, Text.isBlank c = true) :
        Text.sameLetters s word = false := by
      obtain ⟨c, hc, hb⟩ := hs
      refine beq_eq_false_iff_ne.mpr fun heq => ?_
      have hm : c ∈ word.map Char.toLower := by
        rw [← heq, ← Text.toLower_of_isBlank hb]
        exact List.mem_map_of_mem hc
      obtain ⟨d, hd, hdc⟩ := List.mem_map.mp hm
      have solid := hw d hd
      rw [hdc, hb] at solid
      cases solid
    have blank : ∃ c ∈ t, Text.isBlank c = true := by simpa using ht
    rw [other _ ⟨' ', Text.space_mem_squeeze blank, isBlank_space⟩, other t blank]

theorem grants_squeeze (body : Text) : grants (squeeze body) = (grants body).map squeeze := by
  have fold (clauses : List Text) (p : Permissions) :
      (clauses.map squeeze).foldl grant (p.map squeeze) =
        (clauses.foldl grant p).map squeeze := by
    induction clauses generalizing p with
    | nil => rfl
    | cons clause clauses ih => rw [List.map_cons, List.foldl_cons, grant_squeeze, ih]; rfl
  rw [grants, grants, sameLetters_squeeze (by decide), sameLetters_squeeze (by decide),
    Keyword.split_squeeze (by decide), ← List.map_drop]
  split
  · rfl
  · split
    · rfl
    · exact fold _ .empty

theorem permissions_squeeze (t : Text) : permissions (squeeze t) = (permissions t).map squeeze := by
  have solid : Keyword.IsSolid "PERMISSIONS" ∧ Keyword.IsSolid "COMMENT" := by decide
  rw [permissions, permissions, Keyword.cut?_squeeze solid.1]
  cases Keyword.cut? "PERMISSIONS" none t with
  | none => rfl
  | some cut =>
    simp only [Option.map_some, Prod.map_snd, Keyword.cut?_squeeze solid.2]
    cases Keyword.cut? "COMMENT" none cut.2 with
    | none => simp only [Option.map_none, clean_squeeze, grants_squeeze]
    | some cut => simp only [Option.map_some, Prod.map_fst, clean_squeeze, grants_squeeze]

end Clause

end SchemaDrift
