import SchemaDrift.Proofs.Code.Body
import SchemaDrift.Proofs.Code.Lexeme
import SchemaDrift.Proofs.Code.Place
import SchemaDrift.Proofs.Text.Parts

namespace SchemaDrift.Code

/-!
# Reading lexemes

Source code that is made of lexemes is read as these lexemes, wherever the reading starts. One kind
of source code is not: the name of a lifetime can look like the prefix of a raw string, and the
quote of a string behind it is then taken for that of a raw string.
-/

variable {before : Option Char} {c : Char} {t u v w name hashes more : Text}
  {place : Nat} {l : Lexeme} {ls as bs : List Lexeme}

/-- The items of a text that is read from a place on. -/
def scanFrom (t : Text) (place : Nat) : List Item :=
  itemsOf place (pieces 0 (t.take place).getLast? (t.drop place))

/-- Whether the text of the lexemes is read as they are written, from the start of each of them
on. -/
def IsRead (ls : List Lexeme) : Prop := ∀ as bs, ls = as ++ bs →
  scanFrom (sourceOf ls) (sourceOf as).length = lexemeItems (sourceOf as).length bs ∧
    itemsFrom (sourceOf ls) (sourceOf as).length = lexemeItems (sourceOf as).length bs

/-! ## Prefixes of raw strings -/

/-- Whether the text can stand in front of the quote of a raw string. -/
def IsRawPrefix (t : Text) : Prop :=
  ∃ n, t = 'r' :: List.replicate n '#' ∨ t = 'b' :: 'r' :: List.replicate n '#'

/-- Whether a text behind a character ends in such a prefix that continues no name. -/
def EndsRaw (before : Option Char) (t : Text) : Prop :=
  ∃ u v, t = u ++ v ∧ IsRawPrefix v ∧ (lastOf before u).any continuesName = false

/-- The text of some runs that stand in front of a string. -/
def runsAhead? : List Lexeme → Option Text
  | .run t :: ls => (runsAhead? ls).map (t ++ ·)
  | .string _ :: _ => some []
  | _ => none

/-- Whether some runs in front of a string end in the prefix of a raw string. -/
def RawRun (before : Option Char) : List Lexeme → Prop
  | [] => False
  | l :: ls => (∃ t ∈ runsAhead? (l :: ls), EndsRaw before t) ∨ RawRun (lastOf before l.text) ls

/-- Whether the name of a lifetime, with the runs behind it, ends in such a prefix. -/
def RawLabel : List Lexeme → Prop
  | [] => False
  | .lifetime name :: ls => (∃ t ∈ runsAhead? ls, EndsRaw (some '\'') (name ++ t)) ∨ RawLabel ls
  | _ :: ls => RawLabel ls

theorem EndsRaw.exists_getLast? (h : EndsRaw before t) : ∃ c ∈ t.getLast?, c ∈ ['r', '#'] := by
  obtain ⟨u, v, rfl, ⟨n, hv⟩, -⟩ := h
  have last (w : Text) : ∃ c ∈ (w ++ 'r' :: List.replicate n '#').getLast?, c ∈ ['r', '#'] := by
    cases n with
    | zero => exact ⟨'r', by simp, by decide⟩
    | succ n =>
      refine ⟨'#', ?_, by decide⟩
      rw [List.replicate_succ', ← List.cons_append, ← List.append_assoc, List.getLast?_append]
      rfl
  rcases hv with rfl | rfl
  · exact last u
  · simpa using last (u ++ ['b'])

theorem exists_signs (h : rawRest? t ≠ none) :
    ∃ n more, t = List.replicate n '#' ++ '"' :: more := by
  unfold rawRest? at h
  split at h
  · rename_i body hbody
    have all : ∀ c ∈ t.takeWhile (· == '#'), c = '#' := fun c hc => by
      simpa using List.mem_takeWhile_imp (p := (· == '#')) hc
    refine ⟨(t.takeWhile (· == '#')).length, body, ?_⟩
    rw [← List.eq_replicate_of_mem all, ← hbody, List.takeWhile_append_dropWhile]
  · exact absurd rfl h

/-- A literal that starts with a letter has the prefix of a raw string. -/
theorem exists_of_literal? (hc : c ∈ ['r', 'b']) (h : literal? before (c :: t) ≠ none) :
    ∃ v more, c :: t = v ++ '"' :: more ∧ IsRawPrefix v ∧ before.any continuesName = false := by
  unfold literal? at h
  split at h
  · rename_i heq
    obtain ⟨rfl, -⟩ := List.cons.inj heq
    exact absurd hc (by decide)
  · rename_i heq
    obtain ⟨rfl, -⟩ := List.cons.inj heq
    exact absurd hc (by decide)
  · rename_i heq
    obtain ⟨rfl, rfl⟩ := List.cons.inj heq
    split at h
    · exact absurd rfl h
    · rename_i hb
      obtain ⟨n, more, rfl⟩ := exists_signs fun hn => h (Option.map_eq_none_iff.mpr hn)
      exact ⟨_, more, rfl, ⟨n, .inl rfl⟩, Bool.not_eq_true _ ▸ hb⟩
  · rename_i heq
    obtain ⟨rfl, rfl⟩ := List.cons.inj heq
    split at h
    · exact absurd rfl h
    · rename_i hb
      obtain ⟨n, more, rfl⟩ := exists_signs fun hn => h (Option.map_eq_none_iff.mpr hn)
      exact ⟨_, more, rfl, ⟨n, .inr rfl⟩, Bool.not_eq_true _ ▸ hb⟩
  · exact absurd rfl h

/-- A literal starts at the prefix of a raw string. -/
theorem IsRawPrefix.exists_literal? (h : IsRawPrefix v) (hb : before.any continuesName = false)
    (more : Text) : ∃ c cs s, v = c :: cs ∧ c ∈ ['r', 'b'] ∧
      literal? before (c :: (cs ++ '"' :: more)) = some (.literal '"' s) := by
  have length (n : Nat) : ∃ k, rawRest? (List.replicate n '#' ++ '"' :: more) = some k :=
    ⟨_, rawRest?_eq _ _ fun c hc => (List.mem_replicate.mp hc).2⟩
  obtain ⟨n, rfl | rfl⟩ := h
  · obtain ⟨k, hk⟩ := length n
    refine ⟨'r', List.replicate n '#', ('r' :: (List.replicate n '#' ++ '"' :: more)).take (k + 1),
      rfl, by decide, ?_⟩
    rw [literal?, hb, if_neg Bool.false_ne_true, hk, Option.map_some]
  · obtain ⟨k, hk⟩ := length n
    refine ⟨'b', 'r' :: List.replicate n '#',
      ('b' :: 'r' :: (List.replicate n '#' ++ '"' :: more)).take (k + 2), rfl, by decide, ?_⟩
    rw [List.cons_append, literal?, hb, if_neg Bool.false_ne_true, hk, Option.map_some]

/-! ## Strings ahead -/

theorem exists_of_runsAhead? (h : runsAhead? ls = some t) (place : Nat) : ∃ more is,
    sourceOf ls = t ++ '"' :: more ∧ lexemeItems place ls = characterItems place t ++ is := by
  induction ls generalizing t place with
  | nil => cases h
  | cons l ls ih =>
    cases l with
    | run u =>
      obtain ⟨w, hw, rfl⟩ := Option.map_eq_some_iff.mp h
      obtain ⟨more, is, hsource, hitems⟩ := ih hw (place + u.length)
      refine ⟨more, is, ?_, ?_⟩
      · rw [sourceOf_cons, hsource, Lexeme.text, List.append_assoc]
      · rw [lexemeItems, Lexeme.text, hitems, characterItems_append, List.append_assoc]
        rfl
    | string body =>
      cases h
      exact ⟨body ++ ['"'] ++ sourceOf ls, _, rfl, rfl⟩
    | _ => cases h

/-- Lexemes of other kinds start with characters of their own. -/
theorem Lexeme.cases_head (l : Lexeme) : (∃ t, l = .run t) ∨ (∃ body, l = .string body) ∨
    (∃ byte n body, l = .raw byte n body) ∨ ∃ d t, l.text = d :: t ∧ d ∈ ['\'', '/'] := by
  cases l with
  | run t => exact .inl ⟨t, rfl⟩
  | string body => exact .inr (.inl ⟨body, rfl⟩)
  | raw byte n body => exact .inr (.inr (.inl ⟨byte, n, body, rfl⟩))
  | _ => exact .inr (.inr (.inr ⟨_, _, rfl, by decide⟩))

theorem Lexeme.exists_raw_cons (byte : Bool) (n : Nat) (body : Text) :
    ∃ d t, (Lexeme.raw byte n body).text = d :: t ∧ d ∈ ['r', 'b'] := by
  cases byte
  · exact ⟨'r', _, rfl, by decide⟩
  · exact ⟨'b', _, rfl, by decide⟩

theorem runsAhead?_run (ht : ∀ c ∈ t, c ∉ ['"', '\'']) (hs : t ++ sourceOf ls = w ++ '"' :: more)
    (hls : ∀ v, w = t ++ v → sourceOf ls = v ++ '"' :: more → runsAhead? ls = some v) :
    runsAhead? (.run t :: ls) = some w := by
  rcases append_eq_append_cons_cases hs with ⟨v, rfl, -⟩ | ⟨v, rfl, hv⟩
  · exact absurd (ht '"' (by simp)) (by decide)
  · rw [runsAhead?, hls v rfl hv, Option.map_some]

/-- What the first lexeme of a text can be that starts with a number sign or a quote. -/
theorem Lexeme.head_cases (hs : l.text ++ v = c :: u) (hc : c ∈ ['#', '"']) :
    (∃ t, l = .run t) ∨ ∃ body, l = .string body := by
  rcases l.cases_head with hrun | hstring | ⟨byte, n, body, rfl⟩ | ⟨d, t, ht, hd⟩
  · exact .inl hrun
  · exact .inr hstring
  · obtain ⟨d, t, ht, hd⟩ := Lexeme.exists_raw_cons byte n body
    rw [ht] at hs
    obtain ⟨rfl, -⟩ := List.cons.inj hs
    have letters : ∀ d ∈ ['r', 'b'], d ∉ ['#', '"'] := by decide
    exact absurd hc (letters d hd)
  · rw [ht] at hs
    obtain ⟨rfl, -⟩ := List.cons.inj hs
    have others : ∀ d ∈ ['\'', '/'], d ∉ ['#', '"'] := by decide
    exact absurd hc (others d hd)

/-- Number signs in front of a quote stand in runs in front of a string. -/
theorem runsAhead?_signs (h : Lexes before ls) {n : Nat}
    (hs : sourceOf ls = List.replicate n '#' ++ '"' :: more) :
    runsAhead? ls = some (List.replicate n '#') := by
  induction ls generalizing before n with
  | nil => simp at hs
  | cons l ls ih =>
    obtain ⟨hsound, -, hrest⟩ := h
    have first : ∃ c u, l.text ++ sourceOf ls = c :: u ∧ c ∈ ['#', '"'] := by
      cases n with
      | zero => exact ⟨_, _, hs, by decide⟩
      | succ n => exact ⟨_, _, hs, by decide⟩
    obtain ⟨c, u, hcu, hc⟩ := first
    rcases Lexeme.head_cases hcu hc with ⟨t, rfl⟩ | ⟨body, rfl⟩
    · refine runsAhead?_run hsound.1 hs fun v hv hls => ?_
      obtain ⟨-, -, hvn⟩ := List.append_eq_replicate_iff.mp hv.symm
      rw [hvn] at hls ⊢
      exact ih hrest hls
    · cases n with
      | zero => rfl
      | succ n => cases (List.cons.inj hs).1

/-- So does the prefix of a raw string that continues a name. -/
theorem runsAhead?_continued (h : Lexes before ls) (hb : before.any continuesName = true) {n : Nat}
    (hs : sourceOf ls = 'r' :: List.replicate n '#' ++ '"' :: more) :
    runsAhead? ls = some ('r' :: List.replicate n '#') := by
  induction ls with
  | nil => simp at hs
  | cons l ls ih =>
    obtain ⟨hsound, hborders, hrest⟩ := h
    rcases l.cases_head with ⟨t, rfl⟩ | ⟨body, rfl⟩ | ⟨byte, k, body, rfl⟩ | ⟨d, t, ht, hd⟩
    · refine runsAhead?_run hsound.1 hs fun v hv hls => ?_
      cases t with
      | nil =>
        obtain rfl : _ = v := hv
        exact ih hrest hls
      | cons c t =>
        obtain ⟨-, -, hvn⟩ := List.append_eq_replicate_iff.mp (List.cons.inj hv).2.symm
        rw [hvn] at hls ⊢
        exact runsAhead?_signs hrest hls
    · cases (List.cons.inj hs).1
    · exact absurd (hb.symm.trans hborders) (by decide)
    · rw [sourceOf_cons, ht] at hs
      obtain ⟨rfl, -⟩ := List.cons.inj hs
      exact absurd hd (by decide)

/-- A literal that starts in a text without quotes starts with the prefix of a raw string, which
ends in the runs behind the text. -/
theorem exists_endsRaw (h : Lexes (lastOf before (u ++ c :: v)) ls) (hv : '"' ∉ v)
    (hc : c ∈ ['r', 'b']) (hl : literal? (lastOf before u) (c :: (v ++ sourceOf ls)) ≠ none) :
    ∃ t ∈ runsAhead? ls, EndsRaw before (u ++ c :: v ++ t) := by
  obtain ⟨w, more, hw, hraw, hb⟩ := exists_of_literal? hc hl
  have hquote : '"' ∉ c :: v := by
    rw [List.mem_cons, not_or]
    exact ⟨fun he => absurd (he ▸ hc) (by decide), hv⟩
  rw [← List.cons_append] at hw
  rcases append_eq_append_cons_cases hw with ⟨ks, hks, -⟩ | ⟨ks, rfl, hks⟩
  · exact absurd (hks ▸ by simp) hquote
  refine ⟨ks, ?_, u, c :: v ++ ks, by simp, hraw, hb⟩
  obtain ⟨n, hn | hn⟩ := hraw
  · obtain ⟨rfl, hsigns⟩ := List.cons.inj hn
    obtain ⟨-, -, hk⟩ := List.append_eq_replicate_iff.mp hsigns
    rw [hk] at hks ⊢
    exact runsAhead?_signs h hks
  · obtain ⟨rfl, hsigns⟩ := List.cons.inj hn
    cases v with
    | nil =>
      obtain rfl : ks = _ := hsigns
      refine runsAhead?_continued h ?_ hks
      have name : continuesName 'b' = true := by decide +kernel
      rw [lastOf_append]
      exact name
    | cons d v =>
      obtain ⟨rfl, hlater⟩ : d = 'r' ∧ v ++ ks = List.replicate n '#' := List.cons.inj hsigns
      obtain ⟨-, -, hk⟩ := List.append_eq_replicate_iff.mp hlater
      rw [hk] at hks ⊢
      exact runsAhead?_signs h hks

/-! ## Reading -/

/-- A lexeme is cut off as its pieces. -/
theorem isCut_lexeme (h : Lexes before (l :: ls)) (hrun : ¬ RawRun before (l :: ls))
    (hlabel : ¬ RawLabel (l :: ls)) : IsCut before l.pieces (sourceOf ls) := by
  obtain ⟨hsound, hborders, hrest⟩ := h
  cases l with
  | run t =>
    refine isCut_plains fun u c v ht => ⟨hsound.comment?_eq_none ht _, ?_⟩
    subst ht
    have quiet := hsound.1
    by_cases hc : c ∈ ['r', 'b']
    · by_contra hl
      obtain ⟨w, hw, hends⟩ := exists_endsRaw hrest
        (fun hm => absurd (quiet '"' (by simp [hm])) (by decide)) hc hl
      refine hrun (.inl ⟨u ++ c :: v ++ w, ?_, hends⟩)
      rw [runsAhead?, hw]
      rfl
    · have own := quiet c (by simp)
      exact literal?_eq_none (by simp at hc own ⊢; tauto) _ _
  | lifetime name =>
    have quiet := hsound.2
    refine isCut_plains fun u c v ht => ?_
    cases u with
    | nil =>
      obtain ⟨rfl, rfl⟩ := List.cons.inj ht
      exact ⟨comment?_eq_none_iff.mpr (by simp), literal?_lifetime hsound hborders before⟩
    | cons d u =>
      obtain ⟨rfl, rfl⟩ := List.cons.inj ht
      have own := quiet c (by simp)
      refine ⟨comment?_eq_none_iff.mpr fun hslash => ?_, ?_⟩
      · exact own (by simp [hslash.1])
      · rw [lastOf_cons]
        by_cases hc : c ∈ ['r', 'b']
        · by_contra hl
          have last : lastOf before ('\'' :: (u ++ c :: v)) = lastOf (some '\'') (u ++ c :: v) :=
            lastOf_cons
          have behind : Lexes (lastOf (some '\'') (u ++ c :: v)) ls := last ▸ hrest
          obtain ⟨w, hw, hends⟩ := exists_endsRaw behind
            (fun hm => absurd (quiet '"' (by simp [hm])) (by decide)) hc hl
          exact hlabel (.inl ⟨w, hw, hends⟩)
        · exact literal?_eq_none (by simp at hc own ⊢; tauto) _ _
  | string body => exact isCut_literal (literal?_string hsound before (sourceOf ls)) (by decide)
  | raw byte n body =>
    have literal : literal? before ((Lexeme.raw byte n body).text ++ sourceOf ls) =
        some (.literal '"' (Lexeme.raw byte n body).text) :=
          literal?_raw hsound hborders (sourceOf ls)
    cases byte with
    | false => exact isCut_literal literal (by decide)
    | true => exact isCut_literal literal (by decide)
  | char c => exact isCut_literal (literal?_char hsound before (sourceOf ls)) (by decide)
  | escape c rest =>
    exact isCut_literal (literal?_escape hsound.1 hsound.2 before (sourceOf ls)) (by decide)
  | line body =>
    exact ⟨⟨'/', '/' :: body, rfl, first_of_comment (comment?_line hsound hborders)⟩, trivial⟩
  | block body =>
    exact ⟨⟨'/', '*' :: body, rfl, first_of_comment (comment?_block hsound (sourceOf ls))⟩, trivial⟩

theorem isCut_of_lexes (h : Lexes before ls) (hrun : ¬ RawRun before ls) (hlabel : ¬ RawLabel ls) :
    IsCut before (ls.flatMap Lexeme.pieces) [] := by
  induction ls generalizing before with
  | nil => trivial
  | cons l ls ih =>
    have behind : ¬ RawLabel ls := fun hl =>
      hlabel (by cases l <;> first | exact hl | exact .inr hl)
    rw [List.flatMap_cons, isCut_append_iff, textOf_flatMap_pieces, l.textOf_pieces,
      List.append_nil]
    exact ⟨isCut_lexeme h hrun hlabel, ih h.2.2 (fun hr => hrun (.inr hr)) behind⟩

/-- A text that is cut into the pieces of its lexemes is read as the lexemes. -/
theorem isRead_of_isCut (h : IsCut none (ls.flatMap Lexeme.pieces) []) : IsRead ls := by
  rintro as bs rfl
  rw [List.flatMap_append, isCut_append_iff] at h
  have front : textOf (as.flatMap Lexeme.pieces) = sourceOf as := textOf_flatMap_pieces as
  have back : pieces 0 (sourceOf as).getLast? (sourceOf bs) = bs.flatMap Lexeme.pieces := by
    have cut := pieces_textOf_append h.2
    rw [front, textOf_flatMap_pieces, List.append_nil] at cut
    rw [lastOf, Option.or_none] at cut
    exact cut.trans (List.append_nil _)
  constructor
  · rw [scanFrom, sourceOf_append, List.take_left, List.drop_left, back, itemsOf_flatMap_pieces]
  · have whole : pieces 0 none (sourceOf (as ++ bs)) =
        as.flatMap Lexeme.pieces ++ bs.flatMap Lexeme.pieces := by
      have cut := pieces_textOf_append h.1
      rw [front, textOf_flatMap_pieces, List.append_nil, lastOf, Option.or_none, back] at cut
      rw [sourceOf_append, cut]
    rw [← front, itemsFrom_of_pieces whole, itemsOf_flatMap_pieces]

theorem exists_of_rawLabel (h : RawLabel ls) : ∃ as name bs t, ls = as ++ .lifetime name :: bs ∧
    runsAhead? bs = some t ∧ EndsRaw (some '\'') (name ++ t) := by
  induction ls with
  | nil => cases h
  | cons l ls ih =>
    have later (h : RawLabel ls) : ∃ as name bs t, l :: ls = as ++ .lifetime name :: bs ∧
        runsAhead? bs = some t ∧ EndsRaw (some '\'') (name ++ t) := by
      obtain ⟨as, name, bs, t, rfl, ht⟩ := ih h
      exact ⟨l :: as, name, bs, t, rfl, ht⟩
    cases l with
    | lifetime name =>
      rcases h with ⟨t, ht, hends⟩ | h
      · exact ⟨[], name, ls, t, rfl, ht, hends⟩
      · exact later h
    | _ => exact later h

/-- A string behind such a lifetime is taken for a raw string. -/
theorem items_ne_of_rawLabel (h : RawLabel ls) : items (sourceOf ls) ≠ lexemeItems 0 ls := by
  intro hitems
  obtain ⟨as, name, bs, t, rfl, ht, u, v, hname, hraw, hb⟩ := exists_of_rawLabel h
  obtain ⟨more, is, hsource, hbehind⟩ :=
    exists_of_runsAhead? ht ((sourceOf as).length + (1 + name.length))
  obtain ⟨c, cs, s, rfl, hc, hliteral⟩ := hraw.exists_literal? hb more
  have whole : sourceOf (as ++ .lifetime name :: bs) =
      (sourceOf as ++ '\'' :: u) ++ c :: (cs ++ '"' :: more) := by
    rw [sourceOf_append, sourceOf_cons, hsource, Lexeme.text, List.cons_append, ← List.append_assoc,
      hname]
    simp
  have letter : ⟨(sourceOf as ++ '\'' :: u).length, (sourceOf as ++ '\'' :: u).length + 1, c⟩ ∈
      items (sourceOf (as ++ .lifetime name :: bs)) := by
    have own : characterItems (sourceOf as).length ('\'' :: name) ++
        characterItems ((sourceOf as).length + (1 + name.length)) t =
          characterItems (sourceOf as).length ('\'' :: u ++ c :: cs) := by
      have label : '\'' :: u ++ c :: cs = '\'' :: name ++ t := congrArg ('\'' :: ·) hname.symm
      rw [label, characterItems_append, List.length_cons, Nat.add_comm 1]
    rw [hitems, lexemeItems_append, lexemeItems, Nat.zero_add, Lexeme.items, Lexeme.text,
      List.length_cons, Nat.add_comm name.length, hbehind,
      ← List.append_assoc _ (characterItems _ t), own, characterItems_append, List.length_append]
    simp [characterItems]
  obtain ⟨ps, p, qs, hpieces, hmark, hstart, -⟩ := exists_of_mem_items letter
  have split : pieces 0 none (sourceOf (as ++ .lifetime name :: bs)) = (ps ++ [p]) ++ qs := by
    simpa using hpieces
  obtain ⟨htext, hcut, -⟩ := isCut_of_pieces split
  have cut := (isCut_append_iff.mp hcut).2
  have letters : ∀ d ∈ ['r', 'b'], d ∉ ['"', '\''] ∧ d ≠ '/' := by decide
  obtain rfl := eq_plain_of_mark? cut hmark (letters c hc).1
  -- The letter is a piece of its own, although a literal starts at it.
  rw [textOf_append, List.append_assoc, whole] at htext
  obtain ⟨hfront, hback⟩ := List.append_inj htext hstart
  obtain ⟨⟨d, tail, hd, hfirst⟩, -⟩ := cut
  obtain ⟨rfl, rfl⟩ := List.cons.inj hd
  have rest : cs ++ '"' :: more = textOf qs := (List.cons.inj hback).2
  rw [← hfront, lastOf_append, lastOf_cons, textOf_nil, List.nil_append, List.nil_append, ← rest,
    first_of_literal (comment?_eq_none_iff.mpr fun hs => (letters c hc).2 hs.1) hliteral] at hfirst
  cases hfirst

/-- Source code is read as its lexemes exactly if no name of a lifetime is taken for the prefix of a
raw string. -/
theorem isRead_iff (h : Lexes none ls) (hrun : ¬ RawRun none ls) : IsRead ls ↔ ¬ RawLabel ls := by
  refine ⟨fun hread hlabel => items_ne_of_rawLabel hlabel ?_, fun hlabel =>
    isRead_of_isCut (isCut_of_lexes h hrun hlabel)⟩
  exact (hread [] ls rfl).1

/-- Source code with a lexeme of each kind. Its literals and comments hold brackets and quotes. -/
def mixed : List Lexeme :=
  [.run "f(", .string "a\\\")", .run ", b, ", .raw true 1 "x\")", .run ", ",
  .escape '\'' [], .run ", ", .char '"', .run ") -> ", .lifetime "r", .run " ", .line " )\"",
  .run "\n", .block " ( /* \" */ */"]

theorem isRead_mixed : Lexes none mixed ∧ ¬ RawRun none mixed ∧
    ¬ RawLabel mixed ∧ IsRead mixed := by
  have string : Escaped "a\\\")" :=
    .char (by decide) (.escape '"' (.char (by decide) .nil))
  have nested : EndsComment " \" */" :=
    .char (by decide) (by decide)
      (.char (by decide) (by decide) (.char (by decide) (by decide) .close))
  have block : EndsComment " ( /* \" */ */" :=
    .char (by decide) (by decide) (.char (by decide) (by decide) (.char (by decide) (by decide)
      (.nested nested (.char (by decide) (by decide) .close))))
  have raw : ¬ '"' :: List.replicate 1 '#' <:+: ("x\")" : Text) := by decide +kernel
  have line : '\n' ∉ (" )\"" : Text) := by decide +kernel
  have lexes : Lexes none mixed := by
    refine ⟨?_, trivial, string, trivial, ?_, trivial, raw, rfl, ?_, trivial, ⟨by decide, nofun⟩,
      trivial, ?_, trivial, Char.ne_of_val_ne nofun, trivial, ?_, trivial, ?_, nofun, ?_, trivial,
      line, .inr rfl, ?_, trivial, block, trivial, trivial⟩
    all_goals decide +kernel
  have quiet (before : Option Char) (t : Text) (ht : ∀ c ∈ t.getLast?, c ∉ ['r', '#']) :
      ¬ EndsRaw before t := fun h => by
    obtain ⟨c, hc, hm⟩ := h.exists_getLast?
    exact ht c hc hm
  have runs : ¬ RawRun none mixed := by
    simp only [RawRun, mixed, runsAhead?, Option.map_some, Option.map_none, Option.mem_def,
      Option.some.injEq, exists_eq_left', reduceCtorEq, false_and, exists_false, or_false]
    rintro (h | h)
    · exact quiet _ _ (by decide +kernel) h
    · exact quiet _ _ (by decide) h
  have label : ¬ RawLabel mixed := by
    simp [RawLabel, mixed, runsAhead?]
  exact ⟨lexes, runs, label, (isRead_iff lexes runs).mpr label⟩

/-- A label in front of a string with an escaped quote. -/
def labelled : List Lexeme := [.run "break ", .lifetime "r", .string "a\\\"b"]

/-- The text of a string behind a lifetime is not always read as the string. -/
theorem not_forall_isRead : ¬ ∀ ls, Lexes none ls → ¬ RawRun none ls → IsRead ls := by
  intro h
  have string : Escaped "a\\\"b" :=
    .char (by decide) (.escape '"' (.char (by decide) .nil))
  have lexes : Lexes none labelled := by
    refine ⟨?_, trivial, ?_, nofun, string, trivial, trivial⟩
    all_goals decide +kernel
  have runs : ¬ RawRun none labelled := by
    simp only [RawRun, labelled, runsAhead?, Option.map_none, Option.mem_def, Option.some.injEq,
      exists_eq_left', reduceCtorEq, false_and, exists_false, false_or, or_false]
    intro hends
    obtain ⟨c, hc, -⟩ := hends.exists_getLast?
    cases hc
  have label : RawLabel labelled := .inl ⟨[], rfl, [], ['r'], rfl, ⟨0, .inl rfl⟩, by decide +kernel⟩
  exact items_ne_of_rawLabel label (h labelled lexes runs [] labelled rfl).1

end SchemaDrift.Code
