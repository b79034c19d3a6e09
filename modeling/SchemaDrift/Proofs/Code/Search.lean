import SchemaDrift.Proofs.Code.Frame

namespace SchemaDrift.Code

/-!
# What a search finds

A search finds the first match in code that no match before it runs into. That a pattern does not
match in the code of a part of a text can often be told from that part alone: its words do not start
there, whatever stands behind the part.
-/

variable {pattern : Pattern} {accepts : Nat → Bool} {before : Option Char} {place skip : Nat}
  {t a b r w : Text} {c : Char} {p : Piece} {ps qs as bs : List Piece}

/-! ## Searches -/

/-- Nothing is found where the search accepts no match. -/
theorem findFrom_eq_none (h : ∀ u v r, t = u ++ v → v ≠ [] →
    pattern (lastOf before u) v = some r → accepts (place + u.length) = false) :
    findFrom pattern accepts place skip before t = none := by
  induction t generalizing place skip before with
  | nil => rfl
  | cons c t ih =>
    have later (skip : Nat) : findFrom pattern accepts (place + 1) skip (some c) t = none := by
      refine ih fun u v r ht hv hr => ?_
      have own := h (c :: u) v r (by rw [ht]; rfl) hv (by rwa [lastOf_cons])
      rwa [List.length_cons, Nat.add_comm u.length, ← Nat.add_assoc] at own
    unfold findFrom
    split
    · exact later _
    · split
      · exact later _
      · rename_i r hr
        rw [if_neg (by simp [show accepts place = false from h [] (c :: t) r rfl (by simp) hr])]
        exact later _

/-- A match is found if no match before it is accepted or runs into it. -/
theorem findFrom_eq_some {cs : Text} (hm : pattern (lastOf before a) (c :: cs) = some r)
    (hacc : accepts (place + a.length) = true)
    (h : ∀ u v s, a = u ++ v → v ≠ [] → pattern (lastOf before u) (v ++ c :: cs) = some s →
      accepts (place + u.length) = false ∧ (c :: cs).length ≤ s.length)
    (hskip : skip ≤ a.length) :
    findFrom pattern accepts place skip before (a ++ c :: cs) =
      some (place + a.length, place + a.length + ((c :: cs).length - r.length)) := by
  induction a generalizing place skip before with
  | nil =>
    obtain rfl := Nat.le_zero.mp hskip
    rw [List.nil_append, findFrom]
    simp only [lastOf_nil] at hm
    simp only [hm]
    rw [if_pos (by simpa using hacc)]
    rfl
  | cons d a ih =>
    have shift : place + (d :: a).length = place + 1 + a.length := by
      rw [List.length_cons]
      omega
    have later (skip : Nat) (hskip : skip ≤ a.length) :
        findFrom pattern accepts (place + 1) skip (some d) (a ++ c :: cs) =
          some (place + (d :: a).length,
            place + (d :: a).length + ((c :: cs).length - r.length)) := by
      rw [shift]
      refine ih (by rwa [lastOf_cons] at hm) (by rwa [← shift]) (fun u v s ha hv hs => ?_) hskip
      have own := h (d :: u) v s (by rw [ha]; rfl) hv (by rwa [lastOf_cons])
      rwa [List.length_cons, Nat.add_comm u.length, ← Nat.add_assoc] at own
    rw [List.cons_append]
    unfold findFrom
    split
    · rename_i n
      exact later n (by simpa using hskip)
    · split
      · exact later 0 (Nat.zero_le _)
      · rename_i s hs
        obtain ⟨hnot, hlength⟩ := h [] (d :: a) s rfl (by simp) hs
        rw [if_neg (by simp [show accepts place = false from hnot])]
        refine later _ ?_
        simp only [List.length_cons, List.length_append] at hlength ⊢
        omega

/-! ## Silence -/

/-- Whether the pattern does not match from any code of the pieces, whatever stands behind them. -/
def Silent (pattern : Pattern) (ps : List Piece) : Prop :=
  ∀ as p bs, ps = as ++ p :: bs → p.mark?.isSome = true → ∀ before rest,
    pattern (lastOf before (textOf as)) (textOf (p :: bs) ++ rest) = none

theorem silent_nil : Silent pattern [] := fun as p bs h => by simp at h

theorem Silent.append (hp : Silent pattern ps) (hq : Silent pattern qs) :
    Silent pattern (ps ++ qs) := by
  intro as p bs h hmark before rest
  rcases List.append_eq_append_iff.mp h with ⟨k, rfl, hk⟩ | ⟨k, rfl, hk⟩
  · rw [textOf_append, lastOf_append]
    exact hq k p bs hk hmark _ rest
  · cases k with
    | nil =>
      have own := hq [] p bs (by simpa using hk.symm) hmark (lastOf before (textOf as)) rest
      simpa using own
    | cons q k =>
      obtain ⟨rfl, rfl⟩ := List.cons.inj hk
      have own := hp as p k rfl hmark before (textOf qs ++ rest)
      simpa using own

theorem silent_comment (t : Text) : Silent pattern [.comment t] := by
  intro as p bs h hmark
  obtain ⟨rfl, rfl, rfl⟩ : as = [] ∧ p = .comment t ∧ bs = [] := by
    cases as with
    | nil => simpa [eq_comm] using h
    | cons q as => simp at h
  cases hmark

theorem silent_literal {q : Char} {u : Text} (ht : t = c :: u)
    (h : ∀ before rest, pattern before (c :: rest) = none) :
    Silent pattern [.literal q t] := by
  intro as p bs hsplit hmark before rest
  obtain ⟨rfl, rfl, rfl⟩ : as = [] ∧ p = .literal q t ∧ bs = [] := by
    cases as with
    | nil => simpa [eq_comm] using hsplit
    | cons q as => simp at hsplit
  rw [textOf_cons, Piece.text, ht]
  exact h _ _

theorem silent_plains (h : ∀ u c v, t = u ++ c :: v → ∀ before rest,
    pattern (lastOf before u) (c :: v ++ rest) = none) : Silent pattern (plains t) := by
  intro as p bs hsplit hmark before rest
  obtain ⟨u, k, rfl, rfl, hk⟩ := List.map_eq_append_iff.mp hsplit
  obtain ⟨c, v, rfl, rfl, rfl⟩ := List.map_eq_cons_iff.mp hk
  have own := h u c v rfl before rest
  change pattern (lastOf before (textOf (plains u))) (textOf (plains (c :: v)) ++ rest) = none
  rw [textOf_plains, textOf_plains]
  exact own

/-- Where the pieces are silent, a search accepts no match. -/
theorem Silent.isCode_eq_false (hs : Silent pattern as)
    (h : pieces 0 none t = as ++ bs) {u v : Text}
    (hsplit : textOf as = u ++ v) (hv : v ≠ []) {s : Text}
    (hm : pattern (lastOf none u) (v ++ textOf bs) = some s) : isCode t u.length = false := by
  by_contra hcode
  obtain ⟨front, p, back, hpieces, hplace, hmark⟩ :=
    exists_of_isCode (Bool.not_eq_false _ ▸ hcode : isCode t u.length = true)
  rw [h] at hpieces
  rcases List.append_eq_append_iff.mp hpieces with ⟨k, rfl, -⟩ | ⟨k, rfl, hk⟩
  · -- The place would lie behind the silent pieces.
    have length := congrArg List.length hsplit
    have := List.length_pos_iff.mpr hv
    simp only [textOf_append, List.length_append] at hplace length
    omega
  · cases k with
    | nil =>
      have length := congrArg List.length hsplit
      have := List.length_pos_iff.mpr hv
      rw [List.append_nil, hplace, List.length_append] at length
      omega
    | cons q k =>
      obtain ⟨rfl, rfl⟩ := List.cons.inj hk
      rw [textOf_append] at hsplit
      obtain ⟨rfl, rfl⟩ := List.append_inj hsplit hplace
      rw [hs front p k rfl hmark none (textOf bs)] at hm
      cases hm

theorem find?_eq_none (h : Silent pattern (pieces 0 none t)) : find? pattern t 0 = none := by
  have whole : pieces 0 none t = pieces 0 none t ++ [] := (List.append_nil _).symm
  refine findFrom_eq_none fun u v r ht hv hr => ?_
  rw [Nat.zero_add]
  refine h.isCode_eq_false whole (u := u) (v := v) ?_ hv (by simpa using hr)
  rw [← ht]
  exact flatMap_text_pieces t

theorem isCode_of_pieces (h : pieces 0 none t = as ++ p :: bs) (hmark : p.mark?.isSome = true) :
    isCode t (textOf as).length = true := by
  obtain ⟨mark, hmark⟩ := Option.isSome_iff_exists.mp hmark
  rw [isCode, items, h, itemsOf_append, List.any_append, Bool.or_eq_true]
  right
  rw [itemsOf, hmark]
  simp

/-- Whether a match that starts before a text does not run into it, whatever stands behind it. -/
def Stops (pattern : Pattern) (t : Text) : Prop :=
  ∀ before v rest r, v ≠ [] → pattern before (v ++ (t ++ rest)) = some r →
    (t ++ rest).length ≤ r.length

/-- Behind silent pieces a match that none runs into is found. -/
theorem find?_eq_some (h : pieces 0 none t = as ++ p :: bs) (hs : Silent pattern as)
    (hmark : p.mark?.isSome = true) (hw : textOf (p :: bs) = c :: w ++ b)
    (hstops : Stops pattern (c :: w))
    (hm : pattern (lastOf none (textOf as)) (c :: w ++ b) = some r) :
    find? pattern t 0 =
      some ((textOf as).length, (textOf as).length + ((c :: w ++ b).length - r.length)) := by
  have text : t = textOf as ++ (c :: w ++ b) := by rw [(isCut_of_pieces h).1, hw]
  have code : isCode t (0 + (textOf as).length) = true := by
    rw [Nat.zero_add]
    exact isCode_of_pieces h hmark
  have found : findFrom pattern (isCode t) 0 0 none (textOf as ++ (c :: w ++ b)) =
      some (0 + (textOf as).length, 0 + (textOf as).length +
        ((c :: w ++ b).length - r.length)) := by
    refine findFrom_eq_some hm code (fun u v s hsplit hv hr => ⟨?_, ?_⟩) (Nat.zero_le _)
    · rw [Nat.zero_add]
      refine hs.isCode_eq_false h hsplit hv (s := s) ?_
      rw [hw]
      exact hr
    · exact hstops _ v b s hv hr
  rwa [← text, Nat.zero_add] at found

/-- No match from before runs into the list of fields. -/
theorem stops_fieldsPattern : Stops fieldsPattern ".fields(vec![" := by
  intro before v rest r hv hr
  obtain ⟨behind, hword, hlist⟩ := Option.bind_eq_some_iff.mp hr
  obtain ⟨rest', hvec, hopen⟩ := Option.bind_eq_some_iff.mp hlist
  have bracket : Text.trimStart rest' = '[' :: r := Text.stripStart_eq_some_iff.mp hopen
  have list : v ++ (".fields(vec![" ++ rest) = ".fields(" ++ (behind.takeWhile Text.isBlank ++
      ("vec!" ++ (rest'.takeWhile Text.isBlank ++ '[' :: r))) := by
    rw [← bracket, Text.trimStart, List.takeWhile_append_dropWhile,
      ← Text.stripStart_eq_some_iff.mp hvec, Text.trimStart, List.takeWhile_append_dropWhile,
      ← Text.stripStart_eq_some_iff.mp hword]
  obtain ⟨c, v, rfl⟩ := List.exists_cons_of_ne_nil hv
  have tail : ("fields(" ++ (behind.takeWhile Text.isBlank ++ ("vec!" ++
      (rest'.takeWhile Text.isBlank ++ ['['])))) ++ r = v ++ '.' :: ("fields(vec![" ++ rest) := by
    have whole : c :: (v ++ '.' :: ("fields(vec![" ++ rest)) = '.' :: ("fields(" ++
        (behind.takeWhile Text.isBlank ++
          ("vec!" ++ (rest'.takeWhile Text.isBlank ++ '[' :: r)))) :=
      list
    rw [(List.cons.inj whole).2]
    simp
  have noDot : '.' ∉ "fields(" ++ (behind.takeWhile Text.isBlank ++ ("vec!" ++
      (rest'.takeWhile Text.isBlank ++ ['[']))) := by
    have words : '.' ∉ ("fields(" : Text) ∧ '.' ∉ ("vec!" : Text) ∧ '.' ∉ ['['] := by decide
    have blanks (t : Text) : '.' ∉ t.takeWhile Text.isBlank := fun hm => by
      have blank := List.mem_takeWhile_imp (p := Text.isBlank) hm
      cases blank
    simp only [List.mem_append, not_or]
    exact ⟨words.1, blanks _, words.2.1, blanks _, words.2.2⟩
  rcases append_eq_append_cons_cases tail with ⟨k, hk, -⟩ | ⟨k, -, hr⟩
  · exact absurd (by rw [hk]; simp) noDot
  · rw [hr]
    simp

/-! ## Words -/

/-- Whether one of two texts starts with the other. -/
def agree : Text → Text → Bool
  | [], _ => true
  | _, [] => true
  | a :: as, b :: bs => a == b && agree as bs

/-- Whether a word starts neither in a text nor at its end, whatever stands behind the text. -/
def avoids (word : Text) : Text → Bool
  | [] => true
  | c :: cs => !agree word (c :: cs) && avoids word cs

theorem agree_of_stripStart {word rest : Text} (h : Text.stripStart word (t ++ rest) = some r) :
    agree word t = true := by
  induction word generalizing t with
  | nil => cases t <;> rfl
  | cons d word ih =>
    cases t with
    | nil => rfl
    | cons e t =>
      rw [List.cons_append, Text.stripStart] at h
      split at h
      · rename_i he
        rw [agree, he, ih h]
        simp
      · cases h

theorem agree_eq_false_of_avoids {word : Text} (h : avoids word (a ++ c :: b) = true) :
    agree word (c :: b) = false := by
  induction a with
  | nil =>
    rw [List.nil_append, avoids, Bool.and_eq_true] at h
    simpa using h.1
  | cons d a ih =>
    rw [List.cons_append, avoids, Bool.and_eq_true] at h
    exact ih h.2

/-- The words with which the heads of functions and the list of fields start. -/
def words : List Text := ["pub", "fn", ".fields("]

theorem avoids_of_not_mem {d : Char} (word : Text) (h : d ∉ t) : avoids (d :: word) t = true := by
  induction t with
  | nil => rfl
  | cons c t ih =>
    obtain ⟨hc, ht⟩ := not_or.mp fun hm => h (List.mem_cons.mpr hm)
    have differ : (d == c) = false := by simpa using hc
    rw [avoids, agree, differ, ih ht]
    rfl

/-- A text without the first letters of the words avoids the words. -/
theorem avoids_of_forall (h : ∀ c ∈ t, c ∉ ['p', 'f', '.']) :
    ∀ word ∈ words, avoids word t = true := by
  have not {d : Char} (hd : d ∈ ['p', 'f', '.']) : d ∉ t := fun hm => h d hm hd
  simp only [words, List.forall_mem_cons, List.not_mem_nil, false_imp_iff, implies_true, and_true]
  exact ⟨avoids_of_not_mem _ (not (by decide)), avoids_of_not_mem _ (not (by decide)),
    avoids_of_not_mem _ (not (by decide))⟩

/-- Whether none of the words starts in the code of the pieces. -/
def Mute (ps : List Piece) : Prop := ∀ word ∈ words, Silent (fun _ => Text.stripStart word) ps

theorem Mute.append (hp : Mute ps) (hq : Mute qs) : Mute (ps ++ qs) := fun word hw =>
  (hp word hw).append (hq word hw)

theorem mute_nil : Mute [] := fun _ _ => silent_nil

theorem mute_comment (t : Text) : Mute [.comment t] := fun _ _ => silent_comment t

theorem mute_quote (t : Text) : Mute [.literal '"' (Text.quote t)] := fun word hw => by
  have away : ∀ word ∈ words, agree word ['"'] = false := by decide
  refine silent_literal (c := '"') (u := t.flatMap Text.escape ++ ['"']) rfl fun _ rest => ?_
  refine Option.eq_none_iff_forall_ne_some.mpr fun r hr => ?_
  have agrees := agree_of_stripStart (t := ['"']) hr
  rw [away word hw] at agrees
  cases agrees

theorem mute_plains (h : ∀ word ∈ words, avoids word t = true) : Mute (plains t) := fun word hw =>
  silent_plains fun u c v hsplit _ rest => by
    refine Option.eq_none_iff_forall_ne_some.mpr fun r hr => ?_
    have away := agree_eq_false_of_avoids (hsplit ▸ h word hw)
    rw [agree_of_stripStart hr] at away
    cases away

/-- A pattern that starts with one of the words is silent where they do not start. -/
theorem Mute.silent (h : Mute ps)
    (hp : ∀ before t r, pattern before t = some r → ∃ word ∈ words, word <+: t) :
    Silent pattern ps := by
  intro as p bs hsplit hmark before rest
  refine Option.eq_none_iff_forall_ne_some.mpr fun r hr => ?_
  obtain ⟨word, hword, tail, htail⟩ := hp _ _ r hr
  have none : Text.stripStart word (textOf (p :: bs) ++ rest) = none :=
    h word hword as p bs hsplit hmark before rest
  rw [Text.stripStart_eq_some_iff.mpr htail.symm] at none
  cases none

theorem Mute.silent_fieldsPattern (h : Mute ps) : Silent fieldsPattern ps :=
  h.silent fun before t r hr => by
    obtain ⟨rest, hword, -⟩ := Option.bind_eq_some_iff.mp hr
    exact ⟨".fields(", by decide, rest, (Text.stripStart_eq_some_iff.mp hword).symm⟩

end SchemaDrift.Code
