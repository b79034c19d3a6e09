import SchemaDrift.Proofs.Statement.Ends

namespace SchemaDrift

/-!
# Blanks around statements

A statement is read as it is when it is trimmed. A reading that fails on the empty text does not see
blanks at the end, since what stands in front of them decides whether it fails.
-/

open Text (trimEnd trimEnd_cons trimEnd_trimEnd trimStart trim)

namespace Text

theorem stripKeyword_trimEnd {k : Text} (hk : ∀ c ∈ k, Text.isNameChar c = true) (t : Text) :
    Text.stripKeyword k (trimEnd t) = (Text.stripKeyword k t).map trimEnd := by
  induction k generalizing t with
  | nil => rfl
  | cons d ds ih =>
    cases t with
    | nil => rfl
    | cons c cs =>
      rw [trimEnd_cons]
      split
      · rename_i h
        have other : d ≠ Text.fold c := by
          rw [fold_of_isBlank h.1]
          rintro rfl
          have solid := isBlank_of_isNameChar (hk _ List.mem_cons_self)
          rw [h.1] at solid
          cases solid
        rw [Text.stripKeyword, Text.stripKeyword, if_neg other]
        rfl
      · rw [Text.stripKeyword, Text.stripKeyword]
        split
        · exact ih (fun e he => hk e (List.mem_cons_of_mem d he)) cs
        · rfl

theorem takeName?_eq (t : Text) : Text.takeName? t =
    if t.takeWhile Text.isNameChar = [] then none
    else some (t.takeWhile Text.isNameChar, t.dropWhile Text.isNameChar) := by
  unfold Text.takeName?
  split <;> simp_all

theorem takeName?_trimEnd (t : Text) :
    Text.takeName? (trimEnd t) = (Text.takeName? t).map (Prod.map id trimEnd) := by
  have solid (c : Char) (h : Text.isNameChar c = true) := isBlank_of_isNameChar h
  rw [takeName?_eq, takeName?_eq, Text.takeWhile_trimEnd solid, Text.dropWhile_trimEnd solid]
  split <;> rfl

end Text

namespace Head

theorem head?_of_word? {k t rest : Text} (h : word? k t = some rest) :
    ∀ c ∈ k.head?, t.head?.map Text.fold = some c := by
  obtain ⟨r, hr, -⟩ := Option.bind_eq_some_iff.mp h
  rintro d hd
  cases k with
  | nil => cases hd
  | cons d' ds =>
    cases hd
    cases t with
    | nil => cases hr
    | cons c cs =>
      rw [Text.stripKeyword] at hr
      split at hr
      · rename_i hc
        exact congrArg some hc.symm
      · cases hr

theorem step?_eq (t : Text) : step? t =
    ((Text.stripStart ".*" t).map (Prod.mk (".*" : Text))).or
      (((Text.stripStart "[*]" t).map (Prod.mk ("[*]" : Text))).or
        (((Text.stripStart "." t).bind Text.takeName?).map (Prod.map ('.' :: ·) id))) := by
  unfold step?
  split
  case h_1 => simp [Text.stripStart]
  case h_2 => simp [Text.stripStart]
  case h_3 rest hstar =>
    have star : Text.stripStart ".*" ('.' :: rest) = none := by
      rw [Option.eq_none_iff_forall_ne_some]
      intro r hr
      exact hstar r (List.cons.inj (Text.stripStart_eq_some_iff.mp hr)).2
    rw [star]
    rfl
  case h_4 hstar helement hdot =>
    have nothing (k : Text) (h : ∀ r, t ≠ k ++ r) : Text.stripStart k t = none :=
      Option.eq_none_iff_forall_ne_some.mpr fun r hr => h r (Text.stripStart_eq_some_iff.mp hr)
    rw [nothing ".*" hstar, nothing "[*]" helement, nothing "." hdot]
    rfl

theorem steps_of_step?_eq_none {t : Text} (h : step? t = none) : steps t = ([], t) := by
  rw [steps]
  split
  · rfl
  · rename_i heq
    rw [h] at heq
    cases heq

theorem steps_of_step?_eq_some {t step rest : Text} (h : step? t = some (step, rest)) :
    steps t = (step ++ (steps rest).1, (steps rest).2) := by
  rw [steps]
  split
  · rename_i heq
    rw [h] at heq
    cases heq
  · rename_i heq
    rw [h] at heq
    cases heq
    rfl

theorem path?_eq (t : Text) : path? t = (Text.takeName? t).map fun r =>
    (r.1 ++ (steps r.2).1, (steps r.2).2) := by
  rw [path?]
  cases Text.takeName? t <;> rfl

/-- A change of texts that leaves what is read in front as it is: solid texts and names are found in
front of the changed text where they are in front of the text, and the change is in the rest. -/
structure KeepsFront (f : Text → Text) : Prop where
  stripStart : ∀ k : Text, k ≠ [] → (∀ c ∈ k, Text.isBlank c = false) →
    ∀ t, Text.stripStart k (f t) = (Text.stripStart k t).map f
  takeName? : ∀ t, Text.takeName? (f t) = (Text.takeName? t).map (Prod.map id f)

namespace KeepsFront

variable {f : Text → Text}

theorem skipBacktick (h : KeepsFront f) (t : Text) :
    Head.skipBacktick (f t) = f (Head.skipBacktick t) := by
  rw [Head.skipBacktick, h.stripStart "\x60" (by decide) (by decide), Head.skipBacktick]
  cases Text.stripStart "\x60" t <;> rfl

theorem name? (h : KeepsFront f) (t : Text) :
    Head.name? (f t) = (Head.name? t).map (Prod.map id f) := by
  rw [Head.name?, h.skipBacktick, h.takeName?, Head.name?, Option.map_map, Option.map_map]
  congr 1
  funext r
  exact congrArg (Prod.mk r.1) (h.skipBacktick r.2)

theorem step? (h : KeepsFront f) (t : Text) :
    Head.step? (f t) = (Head.step? t).map (Prod.map id f) := by
  rw [step?_eq, step?_eq, h.stripStart ".*" (by decide) (by decide),
    h.stripStart "[*]" (by decide) (by decide), h.stripStart "." (by decide) (by decide)]
  simp only [Option.map_or, Option.map_map, Option.bind_map, Option.map_bind, Function.comp_def,
    h.takeName?]
  rfl

theorem steps (h : KeepsFront f) (t : Text) : Head.steps (f t) = Prod.map id f (Head.steps t) := by
  induction t using Head.steps.induct with
  | case1 t hstop =>
    have stop : Head.step? (f t) = none := by
      rw [h.step?, hstop]
      rfl
    rw [steps_of_step?_eq_none stop, steps_of_step?_eq_none hstop]
    rfl
  | case2 t step rest hnext ih =>
    have next : Head.step? (f t) = some (step, f rest) := by
      rw [h.step?, hnext]
      rfl
    rw [steps_of_step?_eq_some next, steps_of_step?_eq_some hnext, ih]
    rfl

theorem path? (h : KeepsFront f) (t : Text) :
    Head.path? (f t) = (Head.path? t).map (Prod.map id f) := by
  rw [path?_eq, path?_eq, h.takeName?, Option.map_map, Option.map_map]
  congr 1
  funext r
  simp only [Function.comp_apply, Prod.map, h.steps]
  rfl

end KeepsFront

theorem keepsFront_trimEnd : KeepsFront trimEnd where
  stripStart _ hne hk := Text.stripStart_trimEnd hne fun c hc => hk c (List.mem_of_mem_getLast? hc)
  takeName? := Text.takeName?_trimEnd

theorem target?_eq (t : Text) : target? t = (Text.skipBlanks? t).bind fun t =>
    (word? "on" t).bind fun t => ((word? "table" t).bind name?).or (name? t) :=
  Option.bind_assoc ..

theorem owned_eq (first : Text → Option (Text × Text)) (t : Text) : owned first t =
    (first t).bind fun r => (target? r.2).map fun u => ⟨r.1, u.1, u.2⟩ := by
  rw [owned]
  cases first t with
  | none => rfl
  | some r =>
    cases h : target? r.2 <;> simp [h]

end Head

/-- Whether a reading fails on the empty text and, up to what `g` makes of its result, does not
depend on blanks at the end. -/
structure IgnoresEnd {β γ : Type} (g : β → γ) (read : Text → Option β) : Prop where
  nil : read [] = none
  map_trimEnd : ∀ t, (read (trimEnd t)).map g = (read t).map g

namespace IgnoresEnd

variable {α β γ : Type} {g : β → γ} {read read' : Text → Option β}

theorem of_keep {read : Text → Option (α × Text)} {g : α × Text → γ}
    (hnil : read [] = none)
    (hread : ∀ t, read (trimEnd t) = (read t).map (Prod.map id trimEnd))
    (hg : ∀ a t, g (a, trimEnd t) = g (a, t)) : IgnoresEnd g read where
  nil := hnil
  map_trimEnd t := by
    rw [hread, Option.map_map]
    congr 1
    funext r
    exact hg r.1 r.2

theorem skipBlanks (h : IgnoresEnd g read) :
    IgnoresEnd g fun t => (Text.skipBlanks? t).bind read where
  nil := rfl
  map_trimEnd t := by
    rcases Text.skipBlanks?_trimEnd t with hs | ⟨hs, hs'⟩
    · rw [hs]
      cases Text.skipBlanks? t with
      | none => rfl
      | some rest => exact h.map_trimEnd rest
    · rw [hs, hs', Option.bind_some, h.nil]
      rfl

theorem stripKeyword {k : Text} (hk : IsName k) (h : IgnoresEnd g read) :
    IgnoresEnd g fun t => (Text.stripKeyword k t).bind read where
  nil := by
    obtain ⟨c, cs, rfl⟩ := List.exists_cons_of_ne_nil hk.1
    rfl
  map_trimEnd t := by
    rw [Text.stripKeyword_trimEnd hk.2]
    cases Text.stripKeyword k t with
    | none => rfl
    | some rest => exact h.map_trimEnd rest

theorem word {k : Text} (hk : IsName k) (h : IgnoresEnd g read) :
    IgnoresEnd g fun t => (Head.word? k t).bind read := by
  have rest := (skipBlanks h).stripKeyword hk
  simp only [Head.word?, Option.bind_assoc]
  exact rest

theorem or (h : IgnoresEnd g read) (h' : IgnoresEnd g read') :
    IgnoresEnd g fun t => (read t).or (read' t) where
  nil := by rw [h.nil, h'.nil]; rfl
  map_trimEnd t := by rw [Option.map_or, Option.map_or, h.map_trimEnd, h'.map_trimEnd]

/-- A reading that goes through blanks at the end ignores them if what comes of its result does. -/
theorem bind {first : Text → Option (α × Text)} {next : α → Text → Option β}
    (hnil : first [] = none)
    (hfirst : ∀ t, first (trimEnd t) = (first t).map (Prod.map id trimEnd))
    (hnext : ∀ a, IgnoresEnd g (next a)) :
    IgnoresEnd g fun t => (first t).bind fun r => next r.1 r.2 where
  nil := by rw [hnil]; rfl
  map_trimEnd t := by
    rw [hfirst]
    cases first t with
    | none => rfl
    | some r => exact (hnext r.1).map_trimEnd r.2

theorem map {f : α → β} {read : Text → Option α} (h : IgnoresEnd (fun a => g (f a)) read) :
    IgnoresEnd g fun t => (read t).map f where
  nil := by rw [h.nil]; rfl
  map_trimEnd t := by
    rw [Option.map_map, Option.map_map]
    exact h.map_trimEnd t

theorem guarded (h : IgnoresEnd g read) : IgnoresEnd g (Head.guarded read) := by
  have split (t : Text) : Head.guarded read t =
      (((Head.word? "overwrite" t).bind read).or
        ((Head.word? "if" t).bind fun t => (Head.word? "not" t).bind fun t =>
          (Head.word? "exists" t).bind read)).or (read t) := by
    rw [Head.guarded, Head.guard?]
    congr 1
    cases ho : Head.word? "overwrite" t with
    | none => simp only [Option.none_or, Option.bind_none, Option.bind_assoc]
    | some rest =>
      -- A text has one guard at most, since the two start with different letters.
      have other : Head.word? "if" t = none := by
        rw [Option.eq_none_iff_forall_ne_some]
        intro r hr
        have o := Head.head?_of_word? ho 'o' rfl
        rw [Head.head?_of_word? hr 'i' rfl] at o
        exact absurd o (by decide)
      rw [other]
      simp
  have guard : IgnoresEnd g fun t => ((Head.word? "overwrite" t).bind read).or
        ((Head.word? "if" t).bind fun t => (Head.word? "not" t).bind fun t =>
          (Head.word? "exists" t).bind read) :=
    (h.word (by decide)).or (((h.word (by decide)).word (by decide)).word (by decide))
  have all := guard.or h
  rw [funext split]
  exact all

/-! ## Heads -/

theorem target {g : Text × Text → γ} (hg : ∀ a t, g (a, trimEnd t) = g (a, t)) :
    IgnoresEnd g Head.target? := by
  have name : IgnoresEnd g Head.name? := of_keep rfl Head.keepsFront_trimEnd.name? hg
  have table : IgnoresEnd g fun t => ((Head.word? "table" t).bind Head.name?).or (Head.name? t) :=
    (name.word (by decide)).or name
  have all := (table.word (k := "on") (by decide)).skipBlanks
  rw [funext Head.target?_eq]
  exact all

theorem owned {first : Text → Option (Text × Text)} (hnil : first [] = none)
    (hfirst : ∀ t, first (trimEnd t) = (first t).map (Prod.map id trimEnd))
    {g : Head.Owned → γ}
    (hg : ∀ head, g { head with body := trimEnd head.body } = g head) :
    IgnoresEnd g (Head.owned first) := by
  rw [funext (Head.owned_eq first)]
  exact bind hnil hfirst fun name =>
    map (f := fun u : Text × Text => (⟨name, u.1, u.2⟩ : Head.Owned)) <|
      target fun table body => hg ⟨name, table, body⟩

/-- Neither blanks in front of a definition nor blanks behind it matter to its head. -/
theorem defined {noun : Text} (hn : IsName noun) (h : IgnoresEnd g read) (s : Text) :
    ((Head.define? noun (trim s)).bind read).map g = ((Head.define? noun s).bind read).map g := by
  have eq (s : Text) : (Head.define? noun s).bind read =
      (fun t => (Head.word? "define" t).bind fun t => (Head.word? noun t).bind read)
        (trimStart s) := by
    rw [Head.define?, Option.bind_assoc]
  have all := (h.word hn).word (k := "define") (by decide)
  rw [eq, eq, Text.trimStart_trim, trim]
  exact all.map_trimEnd (trimStart s)

end IgnoresEnd

namespace Statement

theorem expect_bind_eq {α β : Type} (noun : Noun) (s : Text) (head : Option α)
    (f : α → Except Fault β) : (expect noun s head).bind f =
      (head.map f).elim (.error (.unexpected noun (trim s))) id := by
  cases head <;> rfl

section Trim

variable {γ : Type} {g : Head.Owned → γ}
  (hg : ∀ head, g { head with body := trimEnd head.body } = g head)

include hg

theorem map_field?_trim (s : Text) : (Head.field? (trim s)).map g = (Head.field? s).map g :=
  (IgnoresEnd.owned rfl Head.keepsFront_trimEnd.path? hg).guarded.defined (by decide) s

theorem map_index?_trim (s : Text) : (Head.index? (trim s)).map g = (Head.index? s).map g :=
  (IgnoresEnd.owned rfl Head.keepsFront_trimEnd.name? hg).guarded.defined (by decide) s

theorem map_event?_trim (s : Text) : (Head.event? (trim s)).map g = (Head.event? s).map g :=
  (IgnoresEnd.owned rfl Head.keepsFront_trimEnd.name? hg).guarded.defined (by decide) s

end Trim

theorem readTable_trim (s : Text) : readTable (trim s) = readTable s := by
  have eq (s : Text) : readTable s = ((Head.table? s).map fun r => tableOf r.1 r.2).elim
      (.error (.unexpected .table (trim s))) .ok := by
    rw [readTable]
    cases Head.table? s <;> rfl
  have name : IgnoresEnd (fun r => tableOf r.1 r.2) Head.name? :=
    .of_keep rfl Head.keepsFront_trimEnd.name? tableOf_trimEnd
  have head : (Head.table? (trim s)).map (fun r => tableOf r.1 r.2) =
      (Head.table? s).map fun r => tableOf r.1 r.2 := name.guarded.defined (by decide) s
  rw [eq, eq, head, Text.trim_trim]

end Statement

namespace Definition

open Statement

theorem readAs_trim (s : Text) (noun : Noun) : readAs (trim s) noun = readAs s noun := by
  cases noun with
  | table => rw [readAs, readTable_trim, readAs]
  | field =>
    have eq (s : Text) : readAs s .field = (expect .field s (Head.field? s)).bind fun head =>
        .ok (.member head.table (.field (Statement.field head))) := by
      rw [readAs]
      cases expect .field s (Head.field? s) <;> rfl
    rw [eq, eq, expect_bind_eq, expect_bind_eq, Text.trim_trim, map_field?_trim]
    intro head
    rw [field_trimEnd]
  | index =>
    have same (head : Head.Owned) : Statement.index (trim s) head = Statement.index s head := by
      simp only [Statement.index, Text.trim_trim]
    simp only [readAs, same]
    rw [expect_bind_eq, expect_bind_eq, Text.trim_trim, map_index?_trim]
    intro head
    rw [index_trimEnd]
  | event =>
    have same (head : Head.Owned) : Statement.event (trim s) head = Statement.event s head := by
      simp only [Statement.event, Text.trim_trim]
    simp only [readAs, same]
    rw [expect_bind_eq, expect_bind_eq, Text.trim_trim, map_event?_trim]
    intro head
    rw [event_trimEnd]

end Definition

namespace Head

theorem noun?_eq (t : Text) : noun? t = (word? "define" (trimStart t)).bind fun t =>
    if t.takeWhile Text.isLetter = [] then none
    else some (t.takeWhile Text.isLetter, t.dropWhile Text.isLetter) := by
  rw [noun?]
  congr 1
  funext t
  split <;> simp_all

theorem isNameChar_of_isLetter {c : Char} (h : Text.isLetter c = true) :
    Text.isNameChar c = true := by
  rw [Text.isLetter] at h
  simp [Text.isNameChar, Char.isAlphanum, h]

theorem noun?_trim (s : Text) : (noun? (trim s)).map (Prod.map id trimEnd) =
    (noun? s).map (Prod.map id trimEnd) := by
  have solid (c : Char) (h : Text.isLetter c = true) :=
    isBlank_of_isNameChar (isNameChar_of_isLetter h)
  have letters : IgnoresEnd (Prod.map id trimEnd) fun t =>
      if t.takeWhile Text.isLetter = [] then none
      else some (t.takeWhile Text.isLetter, t.dropWhile Text.isLetter) := by
    refine .of_keep rfl (fun t => ?_) fun a t => congrArg (Prod.mk a) (trimEnd_trimEnd t)
    rw [Text.takeWhile_trimEnd solid, Text.dropWhile_trimEnd solid]
    split <;> rfl
  have all := letters.word (k := "define") (by decide)
  rw [noun?_eq, noun?_eq, Text.trimStart_trim, trim]
  exact all.map_trimEnd (trimStart s)

theorem anyName_eq (t : Text) : anyName t = ((Text.skipBlanks? t).bind (guarded fun t =>
    if t.takeWhile isNamePart = [] then none else some (t.takeWhile isNamePart))).getD [] := by
  rw [anyName]
  congr
  funext t
  split <;> simp_all

theorem anyName_trimEnd (t : Text) : anyName (trimEnd t) = anyName t := by
  have solid (c : Char) (h : isNamePart c = true) : Text.isBlank c = false := by
    simp only [isNamePart, Bool.and_eq_true, Bool.not_eq_true'] at h
    exact h.1.1
  have part : IgnoresEnd id fun t =>
      if t.takeWhile isNamePart = [] then none else some (t.takeWhile isNamePart) := by
    refine ⟨rfl, fun t => ?_⟩
    rw [Text.takeWhile_trimEnd solid]
  have all := part.guarded.skipBlanks.map_trimEnd t
  rw [Option.map_id_fun] at all
  rw [anyName_eq, anyName_eq]
  exact congrArg (·.getD []) all

end Head

namespace Definition

/-- A statement of a kind that no schema holds. -/
theorem read_of_forall_ne {statement word rest : Text}
    (h : Head.noun? statement = some (word, rest))
    (hword : ∀ noun : Noun, Text.uppercase word ≠ noun.keyword) :
    read statement = .ok (.unsupported (Text.uppercase word) (Head.anyName rest)) := by
  rw [read, h]
  simp only [if_neg (hword _)]

theorem read_trim (s : Text) : read (trim s) = read s := by
  have nouns := Head.noun?_trim s
  cases h : Head.noun? s with
  | none =>
    rw [h, Option.map_none, Option.map_eq_none_iff] at nouns
    rw [read, read, h, nouns]
  | some found =>
    obtain ⟨word, rest⟩ := found
    rw [h, Option.map_some, Option.map_eq_some_iff] at nouns
    obtain ⟨⟨word', rest'⟩, h', heq⟩ := nouns
    obtain rfl : word' = word := congrArg Prod.fst heq
    have hrest : trimEnd rest' = trimEnd rest := congrArg Prod.snd heq
    by_cases hnoun : ∃ noun : Noun, Text.uppercase word' = noun.keyword
    · obtain ⟨noun, hnoun⟩ := hnoun
      rw [read_of_uppercase h' hnoun, read_of_uppercase h hnoun, readAs_trim]
    · have other (noun : Noun) : Text.uppercase word' ≠ noun.keyword :=
        fun hn => hnoun ⟨noun, hn⟩
      rw [read_of_forall_ne h' other, read_of_forall_ne h other, ← Head.anyName_trimEnd rest',
        hrest, Head.anyName_trimEnd]

end Definition

end SchemaDrift
