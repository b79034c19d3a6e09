import SchemaDrift.Proofs.Model.Spelling

namespace SchemaDrift.TypeExpr

/-!
# Filled literals

A text with literals is a text with empty ones in which their contents are filled in. What is
outside of the literals is the same in both, so that the filled text can be taken apart and put
together with the empty one.
-/

/-- The marks around the content of a literal. -/
def isQuote (c : Char) : Bool := c == '\'' || c == '"'

/-- Whether the last text is the first one with the contents filled into its empty literals, from
left to right. -/
inductive Fills : Text → List Text → Text → Prop
  | nil : Fills [] [] []
  | plain {t s : Text} {cs : List Text} {c : Char} (hc : isQuote c = false) (h : Fills t cs s) :
      Fills (c :: t) cs (c :: s)
  | literal {t s : Text} {cs : List Text} {q : Char} (hq : isQuote q = true) (content : Text)
      (h : Fills t cs s) : Fills (q :: q :: t) (content :: cs) (q :: (content ++ q :: s))

namespace Fills

variable {t s a b x y : Text} {cs ds : List Text} {c : Char}

theorem append (h : Fills a cs x) (h' : Fills b ds y) : Fills (a ++ b) (cs ++ ds) (x ++ y) := by
  induction h with
  | nil => exact h'
  | plain hc _ ih => exact .plain hc ih
  | @literal t s cs q hq content _ ih =>
    have step := Fills.literal hq content ih
    simpa using step

theorem of_plain (hc : isQuote c = false) (h : Fills (c :: t) cs s) :
    ∃ y, s = c :: y ∧ Fills t cs y := by
  cases h with
  | plain _ h => exact ⟨_, rfl, h⟩
  | literal hq _ _ => simp [hq] at hc

theorem of_literal {q : Char} (hq : isQuote q = true) (h : Fills (q :: q :: t) cs s) :
    ∃ content ds y, cs = content :: ds ∧ s = q :: (content ++ q :: y) ∧ Fills t ds y := by
  cases h with
  | plain hc _ => simp [hq] at hc
  | literal _ content h => exact ⟨content, _, _, rfl, rfl, h⟩

/-- A text without quotes has nothing to fill in. -/
theorem refl (h : ∀ c ∈ t, isQuote c = false) : Fills t [] t := by
  induction t with
  | nil => exact .nil
  | cons c t ih =>
    exact .plain (h c List.mem_cons_self) (ih fun d hd => h d (List.mem_cons_of_mem c hd))

theorem eq_of_unquoted (h : Fills t cs s) (ht : ∀ c ∈ t, isQuote c = false) : cs = [] ∧ s = t := by
  induction h with
  | nil => exact ⟨rfl, rfl⟩
  | @plain t s cs c _ _ ih =>
    obtain ⟨hcs, hs⟩ := ih fun d hd => ht d (List.mem_cons_of_mem c hd)
    exact ⟨hcs, congrArg (c :: ·) hs⟩
  | literal hq _ _ _ => exact absurd (ht _ List.mem_cons_self) (by simp [hq])

theorem eq_of_filled_unquoted (h : Fills t cs s) (hs : ∀ c ∈ s, isQuote c = false) :
    cs = [] ∧ s = t := by
  induction h with
  | nil => exact ⟨rfl, rfl⟩
  | @plain t s cs c _ _ ih =>
    obtain ⟨hcs, hs⟩ := ih fun d hd => hs d (List.mem_cons_of_mem c hd)
    exact ⟨hcs, congrArg (c :: ·) hs⟩
  | literal hq _ _ _ => exact absurd (hs _ List.mem_cons_self) (by simp [hq])

/-- A text without quotes is filled to itself, and is itself filled from no other text. -/
theorem eq_iff (h : Fills t cs s) {k : Text} (hk : ∀ c ∈ k, isQuote c = false) : s = k ↔ t = k := by
  constructor
  · rintro rfl
    exact (h.eq_of_filled_unquoted hk).2.symm
  · rintro rfl
    exact (h.eq_of_unquoted hk).2

/-! ## Taking a filled text apart -/

/-- A text is cut in front of and behind a character that is no quote. -/
theorem of_append_cons (hc : isQuote c = false) (h : Fills (a ++ c :: b) cs s) :
    ∃ as bs x y, cs = as ++ bs ∧ s = x ++ c :: y ∧ Fills a as x ∧ Fills b bs y := by
  generalize ht : a ++ c :: b = t at h
  induction h generalizing a with
  | nil => simp at ht
  | @plain t s cs d hd h ih =>
    cases a with
    | nil =>
      obtain ⟨rfl, rfl⟩ := List.cons.inj ht
      exact ⟨[], cs, [], s, rfl, rfl, .nil, h⟩
    | cons e a =>
      obtain ⟨rfl, htail⟩ := List.cons.inj ht
      obtain ⟨as, bs, x, y, rfl, rfl, hx, hy⟩ := ih htail
      exact ⟨as, bs, e :: x, y, rfl, rfl, .plain hd hx, hy⟩
  | @literal t s cs q hq content h ih =>
    match a with
    | [] =>
      rw [(List.cons.inj ht).1, hq] at hc
      cases hc
    | [e] =>
      rw [(List.cons.inj (List.cons.inj ht).2).1, hq] at hc
      cases hc
    | e :: e' :: a =>
      obtain ⟨rfl, htail⟩ := List.cons.inj ht
      obtain ⟨rfl, hrest⟩ := List.cons.inj htail
      obtain ⟨as, bs, x, y, rfl, rfl, hx, hy⟩ := ih hrest
      exact ⟨content :: as, bs, e' :: (content ++ e' :: x), y, rfl, by simp,
        .literal hq content hx, hy⟩

/-- What a filled text starts with, if it has no quotes, was there before. -/
theorem of_filled_append (ha : ∀ c ∈ a, isQuote c = false) (h : Fills t cs (a ++ y)) :
    ∃ b, t = a ++ b ∧ Fills b cs y := by
  induction a generalizing t with
  | nil => exact ⟨t, rfl, h⟩
  | cons c a ih =>
    generalize hs : c :: a ++ y = s at h
    cases h with
    | nil => cases hs
    | plain hc h =>
      obtain ⟨rfl, rfl⟩ := List.cons.inj hs
      obtain ⟨b, rfl, hb⟩ := ih (fun d hd => ha d (List.mem_cons_of_mem c hd)) h
      exact ⟨b, rfl, hb⟩
    | literal hq _ _ =>
      rw [← (List.cons.inj hs).1] at hq
      exact absurd (ha c List.mem_cons_self) (by simp [hq])

/-- The last character of a filled text was there before, if it is no quote. -/
theorem of_filled_concat (hc : isQuote c = false) (h : Fills t cs (x ++ [c])) :
    ∃ a, t = a ++ [c] ∧ Fills a cs x := by
  generalize hs : x ++ [c] = s at h
  induction h generalizing x with
  | nil => simp at hs
  | @plain t s cs d hd h ih =>
    cases x with
    | nil =>
      obtain ⟨rfl, rfl⟩ := List.cons.inj hs
      obtain ⟨rfl, rfl⟩ := h.eq_of_filled_unquoted (by simp)
      exact ⟨[], rfl, .nil⟩
    | cons e x =>
      obtain ⟨rfl, htail⟩ := List.cons.inj hs
      obtain ⟨a, rfl, ha⟩ := ih htail
      exact ⟨e :: a, rfl, .plain hd ha⟩
  | @literal t s cs q hq content h ih =>
    rcases s.eq_nil_or_concat with rfl | ⟨y, e, rfl⟩
    · have last := congrArg List.getLast? hs
      rw [List.getLast?_concat, ← List.cons_append, List.getLast?_concat] at last
      rw [Option.some.inj last, hq] at hc
      cases hc
    · rw [List.concat_eq_append] at hs ih
      have regroup : q :: (content ++ q :: (y ++ [e])) = q :: (content ++ q :: y) ++ [e] := by simp
      rw [regroup] at hs
      obtain ⟨rfl, last⟩ := List.append_inj' hs rfl
      obtain ⟨a, rfl, ha⟩ := ih (by rw [List.singleton_inj.mp last])
      exact ⟨q :: q :: a, rfl, .literal hq content ha⟩

/-- The parts of a joined text are filled one by one. -/
theorem of_join {sep : Char} (hsep : isQuote sep = false) {parts : List Text}
    (h : Fills (Text.join [sep] parts) cs s) : ∃ fs : List (List Text × Text),
      List.Forall₂ (fun p f => Fills p f.1 f.2) parts fs ∧ cs = (fs.map Prod.fst).flatten ∧
        s = Text.join [sep] (fs.map Prod.snd) := by
  induction parts generalizing cs s with
  | nil =>
    obtain ⟨rfl, rfl⟩ := h.eq_of_unquoted (by simp [Text.join, List.intercalate])
    exact ⟨[], .nil, rfl, rfl⟩
  | cons p parts ih =>
    cases parts with
    | nil =>
      rw [Text.join_singleton] at h
      exact ⟨[(cs, s)], .cons h .nil, by simp, by simp⟩
    | cons q parts =>
      rw [Text.join_cons_cons, List.singleton_append] at h
      obtain ⟨as, bs, x, y, rfl, rfl, hx, hy⟩ := h.of_append_cons hsep
      obtain ⟨fs, hfs, rfl, rfl⟩ := ih hy
      refine ⟨(as, x) :: fs, .cons hx hfs, rfl, ?_⟩
      cases hfs with
      | cons _ _ =>
        rw [List.map_cons, List.map_cons, List.map_cons, Text.join_cons_cons, List.singleton_append]

theorem join {sep : Char} (hsep : isQuote sep = false) {parts : List Text}
    {fs : List (List Text × Text)} (h : List.Forall₂ (fun p f => Fills p f.1 f.2) parts fs) :
    Fills (Text.join [sep] parts) (fs.map Prod.fst).flatten
      (Text.join [sep] (fs.map Prod.snd)) := by
  induction h with
  | nil => exact refl (by simp [Text.join, List.intercalate])
  | @cons p f parts fs hp hrest ih =>
    cases hrest with
    | nil => simpa using hp
    | cons _ _ =>
      rw [Text.join_cons_cons, List.map_cons, List.map_cons, List.map_cons, List.map_cons,
        Text.join_cons_cons]
      exact hp.append (.plain hsep ih)

/-! ## What is filled in -/

/-- Blanks are left out of the contents too. -/
theorem compact (h : Fills t cs s) :
    Fills (TypeExpr.compact t) (cs.map TypeExpr.compact) (TypeExpr.compact s) := by
  induction h with
  | nil => exact .nil
  | @plain t s cs c hc _ ih =>
    by_cases hb : Text.isBlank c = true
    · simpa [TypeExpr.compact, hb] using ih
    · simpa [TypeExpr.compact, hb] using ih.plain hc
  | @literal t s cs q hq content _ ih =>
    have hb : Text.isBlank q = false := by
      rcases Bool.or_eq_true_iff.mp hq with h | h
      · rw [eq_of_beq h]
        decide
      · rw [eq_of_beq h]
        decide
    simpa [TypeExpr.compact, hb] using ih.literal hq (TypeExpr.compact content)

/-- What stands in a filled text stands outside of the literals or in a content. -/
theorem mem_iff (h : Fills t cs s) : c ∈ s ↔ c ∈ t ∨ ∃ content ∈ cs, c ∈ content := by
  induction h with
  | nil => simp
  | plain _ _ ih => simp [ih, or_assoc]
  | literal _ content _ ih =>
    simp only [List.mem_cons, List.mem_append, ih, exists_eq_or_imp]
    tauto

theorem eq_of_fills (h : Fills t cs s) {s' : Text} (h' : Fills t cs s') : s = s' := by
  induction h generalizing s' with
  | nil => exact (h'.eq_of_unquoted (by simp)).2.symm
  | plain hc _ ih =>
    obtain ⟨y, rfl, hy⟩ := h'.of_plain hc
    rw [ih hy]
  | literal hq content _ ih =>
    obtain ⟨_, _, y, hcs, rfl, hy⟩ := h'.of_literal hq
    obtain ⟨rfl, rfl⟩ := List.cons.inj hcs
    rw [ih hy]

theorem append_cons_inj {q : Char} {a b x y : Text} (ha : q ∉ a) (hb : q ∉ b)
    (h : a ++ q :: x = b ++ q :: y) : a = b ∧ x = y := by
  have cut := congrArg (Text.cutAt [q]) h
  rw [cutAt_char ha, cutAt_char hb] at cut
  exact Prod.mk.inj (Option.some.inj cut)

/-- Contents without quotes are read off the filled text. -/
theorem contents_eq (h : Fills t cs s) (h' : Fills t ds s)
    (hq : ∀ content ∈ cs ++ ds, ∀ c ∈ content, isQuote c = false) : cs = ds := by
  induction h generalizing ds with
  | nil => exact (h'.eq_of_unquoted (by simp)).1.symm
  | plain hc _ ih =>
    obtain ⟨y, hs, h'⟩ := h'.of_plain hc
    obtain ⟨-, rfl⟩ := List.cons.inj hs
    exact ih h' hq
  | @literal t s cs q hquote content _ ih =>
    obtain ⟨other, ds, y, rfl, hs, h'⟩ := h'.of_literal hquote
    have free (e : Text) (he : e ∈ content :: cs ++ other :: ds) : q ∉ e := fun hm => by
      have := hq e he q hm
      simp [hquote] at this
    obtain ⟨rfl, rfl⟩ := append_cons_inj (free content (by simp)) (free other (by simp))
      (List.cons.inj hs).2
    rw [ih h' fun e he => hq e ?_]
    rcases List.mem_append.mp he with he | he
    · exact List.mem_append_left _ (List.mem_cons_of_mem _ he)
    · exact List.mem_append_right _ (List.mem_cons_of_mem _ he)

/-- One content is read off the filled text, whatever it holds, if the others are known. -/
theorem content_eq {front back : List Text} {c d : Text} (h : Fills t (front ++ c :: back) s)
    (h' : Fills t (front ++ d :: back) s) : c = d := by
  generalize hcs : front ++ c :: back = cs at h
  induction h generalizing front with
  | nil => simp at hcs
  | plain hc _ ih =>
    obtain ⟨y, hs, h'⟩ := h'.of_plain hc
    obtain ⟨-, rfl⟩ := List.cons.inj hs
    exact ih h' hcs
  | literal hq content h ih =>
    obtain ⟨other, ds, y, hds, hs, h'⟩ := h'.of_literal hq
    have filled := (List.cons.inj hs).2
    cases front with
    | nil =>
      obtain ⟨rfl, rfl⟩ := List.cons.inj hcs
      obtain ⟨rfl, rfl⟩ := List.cons.inj hds
      rw [h.eq_of_fills h'] at filled
      exact List.append_cancel_right filled
    | cons e front =>
      obtain ⟨rfl, rest⟩ := List.cons.inj hcs
      obtain ⟨rfl, rfl⟩ := List.cons.inj hds
      obtain ⟨-, rfl⟩ := List.cons.inj (List.append_cancel_left filled)
      exact ih h' rest

end Fills

end SchemaDrift.TypeExpr
