import SchemaDrift.Proofs.Code.Search
import SchemaDrift.Proofs.Statement.Names
import SchemaDrift.Source.Name

namespace SchemaDrift.Code

/-!
# Heads of functions

A function is found by its head: a visibility, the word `fn`, a name and a bracket. The head of a
public function matches the pattern of its own name and of no other name, and no match that starts
before it runs into it.
-/

variable {before : Option Char} {t r name ident : Text} {c : Char} {ps : List Piece}

/-! ## Runs of one kind of character -/

/-- Two texts that start with a run of a kind of character and go on with another kind agree on the
run. -/
theorem append_cons_inj {q : Char → Bool} {a b x y : Text} {c d : Char} (ha : ∀ e ∈ a, q e = true)
    (hb : ∀ e ∈ b, q e = true) (hc : q c = false) (hd : q d = false)
    (h : a ++ c :: x = b ++ d :: y) : a = b ∧ c = d ∧ x = y := by
  induction a generalizing b with
  | nil =>
    cases b with
    | nil =>
      obtain ⟨rfl, rfl⟩ := List.cons.inj h
      exact ⟨rfl, rfl, rfl⟩
    | cons e b =>
      obtain ⟨rfl, -⟩ := List.cons.inj h
      rw [hb c List.mem_cons_self] at hc
      cases hc
  | cons e a ih =>
    cases b with
    | nil =>
      obtain ⟨rfl, -⟩ := List.cons.inj h
      rw [ha e List.mem_cons_self] at hd
      cases hd
    | cons f b =>
      obtain ⟨rfl, htail⟩ := List.cons.inj h
      obtain ⟨rfl, rest⟩ := ih (fun e he => ha e (List.mem_cons_of_mem _ he))
        (fun e he => hb e (List.mem_cons_of_mem _ he)) htail
      exact ⟨rfl, rest⟩

theorem exists_blanks_of_skipBlanks? (h : Text.skipBlanks? t = some r) :
    ∃ d b, t = d :: b ++ r ∧ ∀ e ∈ d :: b, Text.isBlank e = true := by
  cases t with
  | nil => cases h
  | cons d t =>
    rw [Text.skipBlanks?] at h
    split at h
    · rename_i hd
      obtain rfl := Option.some.inj h
      refine ⟨d, t.takeWhile Text.isBlank, ?_, List.forall_mem_cons.mpr ⟨hd, fun e he => ?_⟩⟩
      · rw [List.cons_append, Text.trimStart, List.takeWhile_append_dropWhile]
      · exact List.mem_takeWhile_imp (p := Text.isBlank) he
    · cases h

/-! ## Heads of functions -/

/-- The ways to write a visibility, with the blanks behind it. -/
inductive IsVisibility : Text → Prop
  | none : IsVisibility []
  | bare {d : Char} {b : Text} (hb : ∀ e ∈ d :: b, Text.isBlank e = true) :
      IsVisibility ("pub" ++ d :: b)
  | within {inner : Text} {d : Char} {b : Text} (hinner : ')' ∉ inner)
      (hb : ∀ e ∈ d :: b, Text.isBlank e = true) :
      IsVisibility ("pub(" ++ inner ++ ')' :: (d :: b))

theorem exists_visibility {t : Text} (h : skipVisibility? t = some r) :
    ∃ vis, IsVisibility vis ∧ t = vis ++ r := by
  unfold skipVisibility? at h
  split at h
  · exact ⟨[], .none, (Option.some.inj h)⟩
  · rename_i rest hrest
    obtain rfl := Text.stripStart_eq_some_iff.mp hrest
    split at h
    · rename_i inner
      split at h
      · rename_i behind hbehind
        obtain ⟨d, b, rfl, hb⟩ := exists_blanks_of_skipBlanks? h
        have split := List.takeWhile_append_dropWhile (p := (· != ')')) (l := inner)
        rw [hbehind] at split
        refine ⟨_, @IsVisibility.within (inner.takeWhile (· != ')')) _ _ (fun hm => ?_) hb, ?_⟩
        · have := List.mem_takeWhile_imp (p := (· != ')')) hm
          simp at this
        · conv_lhs => rw [← split]
          simp
      · cases h
    · obtain ⟨d, b, rfl, hb⟩ := exists_blanks_of_skipBlanks? h
      exact ⟨_, .bare hb, by simp⟩

/-- What the head of a function consists of. -/
theorem exists_of_functionPattern {name : Text} (h : functionPattern name before t = some r) :
    before.any Text.isWord = false ∧ ∃ vis d b e, IsVisibility vis ∧
      (∀ x ∈ d :: b, Text.isBlank x = true) ∧ (∀ x ∈ e, Text.isBlank x = true) ∧
        t = vis ++ ("fn" ++ d :: b ++ (name ++ (e ++ '(' :: r))) := by
  unfold functionPattern at h
  split at h
  · cases h
  · rename_i hbefore
    obtain ⟨rest, hvis, hrest⟩ := Option.bind_eq_some_iff.mp h
    obtain ⟨named, hkey, hnamed⟩ := Option.bind_eq_some_iff.mp hrest
    obtain ⟨behind, hname, hbehind⟩ := Option.bind_eq_some_iff.mp hnamed
    obtain ⟨spaced, hfn, hblanks⟩ := Option.bind_eq_some_iff.mp hkey
    obtain ⟨vis, isVis, rfl⟩ := exists_visibility hvis
    obtain ⟨d, b, rfl, hb⟩ := exists_blanks_of_skipBlanks? hblanks
    obtain rfl := Text.stripStart_eq_some_iff.mp hfn
    obtain rfl := Text.stripStart_eq_some_iff.mp hname
    have trimmed : Text.trimStart behind = '(' :: r := Text.stripStart_eq_some_iff.mp hbehind
    refine ⟨by simpa using hbefore, vis, d, b, behind.takeWhile Text.isBlank, isVis, hb,
      fun x hx => List.mem_takeWhile_imp (p := Text.isBlank) hx, ?_⟩
    rw [← trimmed, Text.trimStart, List.takeWhile_append_dropWhile]
    simp

theorem toNat_of_isIdentChar {c : Char} (h : Source.isIdentChar c = true) :
    (48 ≤ c.toNat ∧ c.toNat ≤ 57) ∨ (65 ≤ c.toNat ∧ c.toNat ≤ 90) ∨ c.toNat = 95 ∨
      (97 ≤ c.toNat ∧ c.toNat ≤ 122) := by
  rcases Bool.or_eq_true_iff.mp h with h | h
  · rcases isAlphanum_iff.mp h with h | h | h
    · exact .inr (.inl h)
    · exact .inr (.inr (.inr h))
    · exact .inl h
  · rw [eq_of_beq h]
    decide

theorem isBlank_of_isIdentChar {c : Char} (h : Source.isIdentChar c = true) :
    Text.isBlank c = false := by
  have range := toNat_of_isIdentChar h
  exact Text.isBlank_eq_false_of_toNat (by omega)

theorem isIdentChar_of_isBlank {c : Char} (h : Text.isBlank c = true) :
    Source.isIdentChar c = false := by
  by_contra hc
  rw [isBlank_of_isIdentChar (Bool.not_eq_false _ ▸ hc)] at h
  cases h

theorem isWord_of_isIdentChar {c : Char} (h : Source.isIdentChar c = true) :
    Text.isWord c = true := by
  have next {low high : Nat} {rest : Text.Ranges} {n : Nat} (hl : low ≤ n)
      (hr : Text.Ranges.has rest n = true) : Text.Ranges.has ((low, high) :: rest) n = true := by
    simp [Text.Ranges.has, hl, hr]
  rcases toNat_of_isIdentChar h with h | h | h | h
  · exact Text.Ranges.has_of_mem _ h.1 h.2
  · exact next (by omega) (Text.Ranges.has_of_mem _ h.1 h.2)
  · exact next (by omega) (next (by omega) (Text.Ranges.has_of_mem _ (by omega) (by omega)))
  · exact next (by omega) (next (by omega) (next (by omega) (Text.Ranges.has_of_mem _ h.1 h.2)))

/-- Whether the text is an identifier and not one of the two words at the head of a function. -/
structure IsIdent (t : Text) : Prop where
  ne_nil : t ≠ []
  chars : ∀ c ∈ t, Source.isIdentChar c = true
  ne_pub : t ≠ "pub"
  ne_fn : t ≠ "fn"

theorem words_isIdent : (∀ c ∈ ("pub" : Text), Source.isIdentChar c = true) ∧
    ∀ c ∈ ("fn" : Text), Source.isIdentChar c = true := by decide

/-- Nothing that is an identifier in front of a bracket starts the head of a function. -/
theorem IsIdent.functionPattern_eq_none (h : IsIdent ident) (name : Text) {u v : Text} {c : Char}
    (hsplit : ident = u ++ c :: v) (before : Option Char) (rest : Text) :
    functionPattern name (lastOf before u) (c :: v ++ '(' :: rest) = none := by
  refine Option.eq_none_iff_forall_ne_some.mpr fun r hr => ?_
  obtain ⟨hbefore, vis, d, b, e, hvis, hb, -, ht⟩ := exists_of_functionPattern hr
  have bracket : Source.isIdentChar '(' = false := by decide
  have notIdent : Source.isIdentChar d = false := isIdentChar_of_isBlank (hb d List.mem_cons_self)
  rcases List.eq_nil_or_concat u with rfl | ⟨init, last, rfl⟩
  · have chars : ∀ x ∈ c :: v, Source.isIdentChar x = true := fun x hx =>
      h.chars x (hsplit ▸ by simpa using hx)
    rw [List.nil_append] at hsplit
    cases hvis with
    | none =>
      have run : c :: v ++ '(' :: rest = "fn" ++ d :: (b ++ (name ++ (e ++ '(' :: r))) := by
        rw [ht]
        simp
      exact h.ne_fn (hsplit.trans
        (append_cons_inj chars words_isIdent.2 bracket notIdent run).1)
    | @bare d' b' hb' =>
      have blank : Source.isIdentChar d' = false :=
        isIdentChar_of_isBlank (hb' d' List.mem_cons_self)
      have run : c :: v ++ '(' :: rest =
          "pub" ++ d' :: (b' ++ ("fn" ++ d :: b ++ (name ++ (e ++ '(' :: r)))) := by
        rw [ht]
        simp
      exact h.ne_pub (hsplit.trans
        (append_cons_inj chars words_isIdent.1 bracket blank run).1)
    | @within inner d' b' hinner hb' =>
      have run : c :: v ++ '(' :: rest = "pub" ++ '(' :: (inner ++ ')' :: (d' :: b') ++
          ("fn" ++ d :: b ++ (name ++ (e ++ '(' :: r)))) := by
        rw [ht]
        simp
      exact h.ne_pub (hsplit.trans
        (append_cons_inj chars words_isIdent.1 bracket bracket run).1)
  · -- The character before is part of the identifier.
    have word := isWord_of_isIdentChar (h.chars last (by simp [hsplit]))
    rw [List.concat_eq_append, lastOf_append] at hbefore
    simp [lastOf, word] at hbefore

/-- What starts the head of a function starts with one of its words. -/
theorem head_of_functionPattern (h : functionPattern name before t = some r) :
    ("pub" : Text) <+: t ∨ ("fn" : Text) <+: t := by
  obtain ⟨-, vis, d, b, e, hvis, -, -, rfl⟩ := exists_of_functionPattern h
  cases hvis with
  | none => exact .inr ⟨_, by simp; rfl⟩
  | bare _ => exact .inl ⟨_, by simp; rfl⟩
  | within _ _ => exact .inl ⟨_, by simp; rfl⟩

theorem isBlank_first (h : IsIdent ident) : ∃ c cs, ident = c :: cs ∧ Text.isBlank c = false := by
  obtain ⟨c, cs, rfl⟩ := List.exists_cons_of_ne_nil h.ne_nil
  exact ⟨c, cs, rfl, isBlank_of_isIdentChar (h.chars c List.mem_cons_self)⟩

/-- A match at the word of a function finds the name behind it. -/
theorem eq_of_fn (hident : IsIdent ident) (hname : IsIdent name) {d : Char} {b e x : Text}
    (hb : ∀ y ∈ d :: b, Text.isBlank y = true) (he : ∀ y ∈ e, Text.isBlank y = true)
    (h : " " ++ ident ++ '(' :: x = d :: b ++ (name ++ (e ++ '(' :: r))) : name = ident := by
  obtain ⟨c, cs, hc, hfirst⟩ := isBlank_first hident
  obtain ⟨c', cs', hc', hfirst'⟩ := isBlank_first hname
  have bracket : Source.isIdentChar '(' = false := by decide
  have blanks : " " ++ c :: (cs ++ '(' :: x) = d :: b ++ c' :: (cs' ++ (e ++ '(' :: r)) := by
    rw [hc, hc'] at h
    simpa using h
  obtain ⟨-, rfl, hrest⟩ := append_cons_inj (by decide) hb hfirst hfirst' blanks
  have names : ident ++ '(' :: x = name ++ (e ++ '(' :: r) := by
    rw [hc, hc', List.cons_append, List.cons_append, hrest]
  cases e with
  | nil =>
    exact (append_cons_inj hident.chars hname.chars bracket bracket names).1.symm
  | cons y e =>
    have other : Source.isIdentChar y = false := isIdentChar_of_isBlank (he y List.mem_cons_self)
    exact (append_cons_inj hident.chars hname.chars bracket other names).1.symm

/-- The head of a function with another name. -/
theorem functionPattern_head_eq_none (hident : IsIdent ident) (hname : IsIdent name)
    (hne : name ≠ ident) (before : Option Char) (rest : Text) :
    functionPattern name before ("pub fn " ++ ident ++ '(' :: rest) = none ∧
      functionPattern name before ("fn " ++ ident ++ '(' :: rest) = none := by
  constructor
  · refine Option.eq_none_iff_forall_ne_some.mpr fun r hr => ?_
    obtain ⟨-, vis, d, b, e, hvis, hb, he, ht⟩ := exists_of_functionPattern hr
    cases hvis with
    | none => simp at ht
    | @bare d' b' hb' =>
      have blanks : " " ++ 'f' :: ("n " ++ ident ++ '(' :: rest) =
          d' :: b' ++ 'f' :: ('n' :: (d :: b ++ (name ++ (e ++ '(' :: r)))) := by
        simpa using ht
      obtain ⟨-, -, hrest⟩ := append_cons_inj (by decide) hb' (by decide) (by decide) blanks
      exact hne (eq_of_fn hident hname hb he (x := rest) (by simpa using hrest))
    | within _ _ => simp at ht
  · refine Option.eq_none_iff_forall_ne_some.mpr fun r hr => ?_
    obtain ⟨-, vis, d, b, e, hvis, hb, he, ht⟩ := exists_of_functionPattern hr
    cases hvis with
    | none => exact hne (eq_of_fn hident hname hb he (x := rest) (by simpa using ht))
    | bare _ => simp at ht
    | within _ _ => simp at ht

theorem silent_functionHead (hident : IsIdent ident) (hname : IsIdent name) (hne : name ≠ ident) :
    Silent (functionPattern name) (plains ("pub fn " ++ ident ++ "(")) := by
  refine silent_plains fun u c v hsplit before rest => ?_
  have other (hc : c ≠ 'p' ∧ c ≠ 'f') :
      functionPattern name (lastOf before u) (c :: v ++ rest) = none := by
    refine Option.eq_none_iff_forall_ne_some.mpr fun r hr => ?_
    rcases head_of_functionPattern hr with ⟨x, hx⟩ | ⟨x, hx⟩
    · exact hc.1 (List.cons.inj hx).1.symm
    · exact hc.2 (List.cons.inj hx).1.symm
  rcases List.append_eq_append_iff.mp hsplit with ⟨k, rfl, hk⟩ | ⟨k, hk, hv⟩
  · -- The place is the bracket.
    have : c = '(' := by
      cases k with
      | nil => exact (List.cons.inj hk).1.symm
      | cons x k => simp at hk
    exact other (by rw [this]; decide)
  · rcases List.append_eq_append_iff.mp hk with ⟨k', rfl, hk'⟩ | ⟨k', hk', rfl⟩
    · -- The place is in the name.
      cases k with
      | nil => exact other (by rw [(List.cons.inj hv).1]; decide)
      | cons x k =>
        obtain ⟨rfl, rfl⟩ := List.cons.inj hv
        rw [lastOf_append]
        have own := hident.functionPattern_eq_none name hk' (lastOf before "pub fn ") rest
        simpa using own
    · -- The place is in front of the name.
      have front : u = ("pub fn " : Text).take u.length := by rw [hk', List.take_left]
      have back : k' = ("pub fn " : Text).drop u.length := by rw [hk', List.drop_left]
      have short : u.length ≤ 7 := by
        have length := congrArg List.length hk'
        rw [List.length_append] at length
        exact length.ge.trans' (Nat.le_add_right _ _)
      have apart : ∀ n ≤ 7, n = 0 ∨ n = 4 ∨ n = 7 ∨
          (("pub fn " : Text).drop n).head?.any (fun x => x ≠ 'p' ∧ x ≠ 'f') = true := by decide
      rcases apart _ short with hn | hn | hn | hn
      · rw [hn] at front back
        rw [hv, front, back]
        have own := (functionPattern_head_eq_none hident hname hne before rest).1
        simpa using own
      · rw [hn] at front back
        rw [hv, front, back]
        have own := (functionPattern_head_eq_none hident hname hne (lastOf before "pub ") rest).2
        simpa using own
      · rw [hn] at front back
        obtain ⟨x, xs, hx, -⟩ := isBlank_first hident
        have own := hident.functionPattern_eq_none name (u := []) hx
          (lastOf before "pub fn ") rest
        rw [hv, front, back, hx]
        simpa using own
      · rw [← back] at hn
        cases k' with
        | nil => cases hn
        | cons x k' =>
          obtain ⟨rfl, -⟩ := List.cons.inj hv
          exact other (by simpa using hn)

theorem not_p_mem_of_isBlank {b : Text} (hb : ∀ x ∈ b, Text.isBlank x = true) : 'p' ∉ b := by
  intro h
  cases hb _ h

/-- A `p` behind the beginning of a visibility stands in its brackets. -/
theorem IsVisibility.exists_within {v k : Text} (h : IsVisibility (v ++ 'p' :: k)) (hv : v ≠ []) :
    ∃ w d b, k = w ++ ')' :: (d :: b) ∧ ')' ∉ w ∧ ∀ x ∈ d :: b, Text.isBlank x = true := by
  obtain ⟨y, v, rfl⟩ := List.exists_cons_of_ne_nil hv
  generalize hvis : y :: v ++ 'p' :: k = vis at h
  cases h with
  | none => cases hvis
  | @bare d b hb =>
    have tail : v ++ 'p' :: k = "ub" ++ d :: b := (List.cons.inj hvis).2
    have mem : 'p' ∈ ("ub" ++ d :: b : Text) := by
      rw [← tail]
      simp
    rcases List.mem_append.mp mem with hm | hm
    · exact absurd hm (by decide)
    · exact absurd hm (not_p_mem_of_isBlank hb)
  | @within inner d b hinner hb =>
    have tail : "ub(" ++ (inner ++ ')' :: (d :: b)) = v ++ 'p' :: k := by
      rw [← List.append_assoc]
      exact (List.cons.inj hvis).2.symm
    rcases append_eq_append_cons_cases tail with ⟨w, hw, -⟩ | ⟨w, -, hw⟩
    · have mem : 'p' ∈ ("ub(" : Text) := by
        rw [hw]
        simp
      exact absurd mem (by decide)
    · rcases append_eq_append_cons_cases hw with ⟨w', rfl, rfl⟩ | ⟨w', -, hw'⟩
      · exact ⟨w', d, b, rfl, fun hm => hinner (by simp [hm]), hb⟩
      · have mem : 'p' ∈ ')' :: (d :: b) := by
          rw [hw']
          simp
        rcases List.mem_cons.mp mem with hm | hm
        · exact absurd hm (by decide)
        · exact absurd hm (not_p_mem_of_isBlank hb)

/-- The head of a function is not the end of a visibility in front of the word `fn`. -/
theorem functionHead_ne_within (hident : IsIdent ident) {w b x : Text} {d : Char} (hw : ')' ∉ w)
    (hb : ∀ x ∈ d :: b, Text.isBlank x = true) (rest : Text) :
    "pub fn " ++ ident ++ "() ->" ++ rest ≠ 'p' :: w ++ ')' :: (d :: b ++ 'f' :: x) := by
  intro h
  have run : 'p' :: w ++ ')' :: (d :: b ++ 'f' :: x) =
      "pub fn " ++ ident ++ "(" ++ ')' :: (" ->" ++ rest) := by
    rw [← h]
    simp
  have free : ∀ x ∈ 'p' :: w, (x != ')') = true := by
    refine List.forall_mem_cons.mpr ⟨by decide, fun x hx => ?_⟩
    rw [bne_iff_ne]
    rintro rfl
    exact hw hx
  have free' : ∀ x ∈ "pub fn " ++ ident ++ "(", (x != ')') = true := by
    have words : (∀ x ∈ ("pub fn " : Text), (x != ')') = true) ∧
      ∀ x ∈ ("(" : Text), (x != ')') = true := by decide
    refine List.forall_mem_append.mpr
      ⟨List.forall_mem_append.mpr ⟨words.1, fun x hx => ?_⟩, words.2⟩
    rw [bne_iff_ne]
    rintro rfl
    exact absurd (hident.chars _ hx) (by decide)
  obtain ⟨-, -, behind⟩ := append_cons_inj free free' (by decide) (by decide) run
  have blanks : d :: b ++ 'f' :: x = " " ++ '-' :: ('>' :: rest) := behind
  obtain ⟨-, hf, -⟩ := append_cons_inj hb (by decide) (by decide) (by decide) blanks
  exact absurd hf (by decide)

/-- The head of a function is not the end of a name in front of a bracket. -/
theorem functionHead_ne_name {w e x : Text} (hw : ∀ x ∈ w, Source.isIdentChar x = true)
    (he : ∀ x ∈ e, Text.isBlank x = true) (rest : Text) :
    "pub fn " ++ ident ++ "() ->" ++ rest ≠ 'p' :: w ++ (e ++ '(' :: x) := by
  intro h
  have chars : ∀ x ∈ 'p' :: w, Source.isIdentChar x = true :=
    List.forall_mem_cons.mpr ⟨by decide, hw⟩
  have head : "pub" ++ ' ' :: ("fn " ++ ident ++ "() ->" ++ rest) =
      'p' :: w ++ (e ++ '(' :: x) := by
    rw [← h]
    simp
  cases e with
  | nil =>
    obtain ⟨-, hc, -⟩ := append_cons_inj words_isIdent.1 chars (by decide) (by decide) head
    exact absurd hc (by decide)
  | cons y e =>
    have other : Source.isIdentChar y = false := isIdentChar_of_isBlank (he y List.mem_cons_self)
    obtain ⟨-, -, behind⟩ := append_cons_inj words_isIdent.1 chars (by decide) other head
    cases e with
    | nil => cases (List.cons.inj behind).1
    | cons z e =>
      have first : 'f' = z := (List.cons.inj behind).1
      cases first ▸ he z (by simp)

/-- No match from before runs into the head of a function. -/
theorem stops_functionHead (hident : IsIdent ident) (hname : IsIdent name) :
    Stops (functionPattern name) ("pub fn " ++ ident ++ "() ->") := by
  intro before v rest r hv hr
  by_contra hlt
  obtain ⟨-, vis, d, b, e, hvis, hb, he, ht⟩ := exists_of_functionPattern hr
  have regroup : v ++ ("pub fn " ++ ident ++ "() ->" ++ rest) =
      (vis ++ ("fn" ++ d :: b ++ (name ++ (e ++ ['('])))) ++ r := by
    rw [ht]
    simp
  -- The match ends inside the head.
  obtain ⟨k, hk, hhead⟩ : ∃ k, vis ++ ("fn" ++ d :: b ++ (name ++ (e ++ ['(']))) = v ++ k ∧
      "pub fn " ++ ident ++ "() ->" ++ rest = k ++ r := by
    rcases List.append_eq_append_iff.mp regroup with h | ⟨k, hvk, hrk⟩
    · exact h
    · rw [hrk] at hlt
      simp only [List.length_append] at hlt
      omega
  obtain ⟨k, rfl⟩ : ∃ k', k = 'p' :: k' := by
    cases k with
    | nil =>
      rw [hhead] at hlt
      simp at hlt
    | cons x k =>
      obtain ⟨rfl, -⟩ := List.cons.inj hhead
      exact ⟨k, rfl⟩
  rcases append_eq_append_cons_cases hk with ⟨k', rfl, rfl⟩ | ⟨v', rfl, hn⟩
  · -- The head would start inside the visibility.
    obtain ⟨w, d', b', rfl, hw, hb'⟩ := hvis.exists_within hv
    have inside : "pub fn " ++ ident ++ "() ->" ++ rest =
        'p' :: w ++ ')' ::
        (d' :: b' ++ 'f' :: ('n' :: (d :: b) ++ (name ++ (e ++ ['('])) ++ r)) := by
      rw [hhead]
      simp
    exact functionHead_ne_within hident hw hb' rest inside
  rcases append_eq_append_cons_cases hn with ⟨k', hfn, -⟩ | ⟨w, -, hw⟩
  · have mem : 'p' ∈ ("fn" ++ d :: b : Text) := by
      rw [hfn]
      simp
    rcases List.mem_append.mp mem with hm | hm
    · exact absurd hm (by decide)
    · exact absurd hm (not_p_mem_of_isBlank hb)
  rcases append_eq_append_cons_cases hw with ⟨w', rfl, rfl⟩ | ⟨w', -, hw'⟩
  · -- The head would start inside the name.
    have chars : ∀ x ∈ w', Source.isIdentChar x = true := fun x hx => hname.chars x (by simp [hx])
    have inside : "pub fn " ++ ident ++ "() ->" ++ rest = 'p' :: w' ++ (e ++ '(' :: r) := by
      rw [hhead]
      simp
    exact functionHead_ne_name chars he rest inside
  · have mem : 'p' ∈ e ++ ['('] := by
      rw [hw']
      simp
    rcases List.mem_append.mp mem with hm | hm
    · exact absurd hm (not_p_mem_of_isBlank he)
    · exact absurd hm (by decide)

/-- The head of a function matches the pattern of its name. -/
theorem functionPattern_head (hname : IsIdent name) (hb : before.any Text.isWord = false)
    (rest : Text) : functionPattern name before ("pub fn " ++ name ++ '(' :: rest) = some rest := by
  obtain ⟨c, cs, rfl, hc⟩ := isBlank_first hname
  have key : Text.trimStart (c :: cs ++ '(' :: rest) = c :: cs ++ '(' :: rest := by
    rw [Text.trimStart, List.cons_append, List.dropWhile_cons_of_neg (by simp [hc])]
  have word : skipVisibility? ("pub fn " ++ (c :: cs) ++ '(' :: rest) =
      some ("fn " ++ (c :: cs) ++ '(' :: rest) := rfl
  have blanks : (Text.stripStart "fn" ("fn " ++ (c :: cs) ++ '(' :: rest)).bind Text.skipBlanks? =
      some (Text.trimStart (c :: cs ++ '(' :: rest)) := rfl
  have bracket : Text.stripStart "(" (Text.trimStart ('(' :: rest)) = some rest := rfl
  simp only [functionPattern, hb, Bool.false_eq_true, if_false, word, Option.bind_eq_bind,
    Option.bind_some, blanks, key, Text.stripStart_append, bracket]

theorem Mute.silent_functionPattern (h : Mute ps) : Silent (functionPattern name) ps :=
  h.silent fun before t r hr => by
    rcases head_of_functionPattern hr with hpub | hfn
    · exact ⟨"pub", by decide, hpub⟩
    · exact ⟨"fn", by decide, hfn⟩

theorem silent_functionPattern_plains
    (h : ∀ word ∈ (["pub", "fn"] : List Text), avoids word t = true) :
    Silent (functionPattern name) (plains t) := by
  refine silent_plains fun u c v hsplit before rest => ?_
  refine Option.eq_none_iff_forall_ne_some.mpr fun r hr => ?_
  have away {word x : Text} (hw : word ∈ (["pub", "fn"] : List Text))
      (hx : word ++ x = c :: v ++ rest) : False := by
    have apart := agree_eq_false_of_avoids (hsplit ▸ h word hw)
    rw [agree_of_stripStart (Text.stripStart_eq_some_iff.mpr hx.symm)] at apart
    cases apart
  rcases head_of_functionPattern hr with ⟨x, hx⟩ | ⟨x, hx⟩
  · exact away (by decide) hx
  · exact away (by decide) hx

/-- A call of a function is no head of one. -/
theorem silent_call (hident : IsIdent ident) :
    Silent (functionPattern name) (plains (ident ++ "(")) := by
  refine silent_plains fun u c v hsplit before rest => ?_
  rcases append_eq_append_cons_cases hsplit with ⟨k, hk, rfl⟩ | ⟨k, rfl, hk⟩
  · have own := hident.functionPattern_eq_none name hk before rest
    simpa using own
  · refine Option.eq_none_iff_forall_ne_some.mpr fun r hr => ?_
    have bracket : c = '(' := by
      cases k with
      | nil => exact (List.cons.inj (show '(' :: [] = c :: v from hk)).1.symm
      | cons x k => simp at hk
    rw [bracket] at hr
    rcases head_of_functionPattern hr with ⟨x, hx⟩ | ⟨x, hx⟩
    · have first : 'p' :: ("ub" ++ x) = '(' :: (v ++ rest) := hx
      exact absurd (List.cons.inj first).1 (by decide)
    · have first : 'f' :: ("n" ++ x) = '(' :: (v ++ rest) := hx
      exact absurd (List.cons.inj first).1 (by decide)

/-! ## Finding a function -/

theorem function?_eq_none (h : Silent (functionPattern name) (pieces 0 none t)) :
    function? t name = none := by
  rw [function?, find?_eq_none h]
  rfl

/-- A function is found at its head, behind code where no head of its name starts. -/
theorem function?_eq_some {as bs : List Piece} (hname : IsIdent name)
    (h : pieces 0 none t = as ++ (plains ("pub fn " ++ name ++ "() ->") ++ bs))
    (hs : Silent (functionPattern name) as)
    (hb : (lastOf none (textOf as)).any Text.isWord = false) :
    function? t name = some (textOf as).length := by
  have split : plains ("pub fn " ++ name ++ "() ->") ++ bs =
      .plain 'p' :: (plains ("ub fn " ++ name ++ "() ->") ++ bs) := rfl
  have text : textOf (.plain 'p' :: (plains ("ub fn " ++ name ++ "() ->") ++ bs)) =
      'p' :: ("ub fn " ++ name ++ "() ->") ++ textOf bs := by
    rw [← split, textOf_append, textOf_plains]
    rfl
  have head : functionPattern name (lastOf none (textOf as))
      ('p' :: ("ub fn " ++ name ++ "() ->") ++ textOf bs) = some (") ->" ++ textOf bs) := by
    have own := functionPattern_head hname hb (") ->" ++ textOf bs)
    simpa using own
  rw [split] at h
  rw [function?, find?_eq_some h hs rfl text (stops_functionHead hname hname) head]
  rfl

end SchemaDrift.Code
