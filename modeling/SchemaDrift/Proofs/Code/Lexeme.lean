import SchemaDrift.Proofs.Code.Depth

namespace SchemaDrift.Code

/-!
# Lexemes

Source code is a series of lexemes: runs of code, literals, lifetimes and comments. Each is written
in its own way, and some depend on what stands next to them. What a reader should find of each one
is said here without a reader.
-/

variable {before : Option Char} {c : Char} {t u v rest body name hashes : Text} {place : Nat}

/-! ## How lexemes are written -/

/-- Whether a text can stand between the quotes of a string: a backslash takes in the character
behind it. -/
inductive Escaped : Text → Prop
  | nil : Escaped []
  | char {c : Char} {t : Text} (hc : c ∉ ['"', '\\']) (h : Escaped t) : Escaped (c :: t)
  | escape (c : Char) {t : Text} (h : Escaped t) : Escaped ('\\' :: c :: t)

/-- Whether a text ends a block comment whose start stands in front of it. -/
inductive EndsComment : Text → Prop
  | close : EndsComment ['*', '/']
  | nested {t u : Text} (ht : EndsComment t) (hu : EndsComment u) :
      EndsComment ('/' :: '*' :: (t ++ u))
  | char {c d : Char} {t : Text} (hopen : ¬ (c = '/' ∧ d = '*')) (hclose : ¬ (c = '*' ∧ d = '/'))
      (h : EndsComment (d :: t)) : EndsComment (c :: d :: t)

/-- A part of source code. -/
inductive Lexeme where
  | run (t : Text)
  | string (body : Text)
  | raw (byte : Bool) (hashes : Nat) (body : Text)
  | char (c : Char)
  /-- A character literal with an escape: a character behind a backslash, and more characters. -/
  | escape (c : Char) (rest : Text)
  | lifetime (name : Text)
  | line (body : Text)
  /-- A block comment, whose text goes on up to its end. -/
  | block (body : Text)

namespace Lexeme

def text : Lexeme → Text
  | run t => t
  | string body => '"' :: (body ++ ['"'])
  | raw byte n body => (if byte then ['b'] else []) ++
      'r' :: (List.replicate n '#' ++ '"' :: (body ++ '"' :: List.replicate n '#'))
  | char c => ['\'', c, '\'']
  | escape c rest => '\'' :: '\\' :: c :: (rest ++ ['\''])
  | lifetime name => '\'' :: name
  | line body => '/' :: '/' :: body
  | block body => '/' :: '*' :: body

/-- Whether the lexeme is well formed. -/
def IsSound : Lexeme → Prop
  | run t => (∀ c ∈ t, c ∉ ['"', '\'']) ∧ ¬ ['/', '/'] <:+: t ∧ ¬ ['/', '*'] <:+: t ∧
      t.getLast? ≠ some '/'
  | string body => Escaped body
  | raw _ n body => ¬ '"' :: List.replicate n '#' <:+: body
  | char c => c ≠ '\\'
  | escape c rest => c.toNat < 128 ∧ '\'' ∉ rest
  | lifetime name => name ≠ [] ∧ ∀ c ∈ name, c ∉ ['"', '\'', '/', '\\']
  | line body => '\n' ∉ body
  | block body => EndsComment body

instance (t : Text) : Decidable (run t).IsSound :=
  inferInstanceAs
    (Decidable ((∀ c ∈ t, c ∉ ['"', '\'']) ∧ ¬ ['/', '/'] <:+: t ∧ ¬ ['/', '*'] <:+: t ∧
    t.getLast? ≠ some '/'))

instance (name : Text) : Decidable (lifetime name).IsSound :=
  inferInstanceAs (Decidable (name ≠ [] ∧ ∀ c ∈ name, c ∉ ['"', '\'', '/', '\\']))

/-- Whether the lexeme can stand behind a character and in front of a text. -/
def Borders (before : Option Char) (rest : Text) : Lexeme → Prop
  | raw _ _ _ => before.any continuesName = false
  | lifetime _ => rest.head? ≠ some '\''
  | line _ => rest = [] ∨ rest.head? = some '\n'
  | _ => True

end Lexeme

def sourceOf (ls : List Lexeme) : Text := ls.flatMap Lexeme.text

/-- Whether the lexemes are well formed where they stand, behind a character. -/
def Lexes (before : Option Char) : List Lexeme → Prop
  | [] => True
  | l :: ls => l.IsSound ∧ l.Borders before (sourceOf ls) ∧ Lexes (lastOf before l.text) ls

@[simp] theorem sourceOf_nil : sourceOf [] = [] := rfl

@[simp] theorem sourceOf_cons (l : Lexeme) (ls : List Lexeme) :
    sourceOf (l :: ls) = l.text ++ sourceOf ls := rfl

@[simp] theorem sourceOf_append (as bs : List Lexeme) :
    sourceOf (as ++ bs) = sourceOf as ++ sourceOf bs := List.flatMap_append

/-! ## What stands for lexemes -/

/-- One item for each character. -/
def characterItems (place : Nat) : Text → List Item
  | [] => []
  | c :: t => ⟨place, place + 1, c⟩ :: characterItems (place + 1) t

/-- All characters of code, one quote for a literal, and nothing for a comment. -/
def Lexeme.items (place : Nat) : Lexeme → List Item
  | run t => characterItems place t
  | lifetime name => characterItems place ('\'' :: name)
  | string body => [⟨place, place + (string body).text.length, '"'⟩]
  | raw byte n body => [⟨place, place + (raw byte n body).text.length, '"'⟩]
  | char c => [⟨place, place + (char c).text.length, '\''⟩]
  | escape c rest => [⟨place, place + (escape c rest).text.length, '\''⟩]
  | line _ => []
  | block _ => []

/-- The items of lexemes, the first of which stands at `place`. -/
def lexemeItems (place : Nat) : List Lexeme → List Item
  | [] => []
  | l :: ls => l.items place ++ lexemeItems (place + l.text.length) ls

/-- The pieces that a lexeme should be cut into. -/
def Lexeme.pieces : Lexeme → List Piece
  | run t => plains t
  | lifetime name => plains ('\'' :: name)
  | string body => [.literal '"' (string body).text]
  | raw byte n body => [.literal '"' (raw byte n body).text]
  | char c => [.literal '\'' (char c).text]
  | escape c rest => [.literal '\'' (escape c rest).text]
  | line body => [.comment (line body).text]
  | block body => [.comment (block body).text]

theorem lexemeItems_append (place : Nat) (as bs : List Lexeme) : lexemeItems place (as ++ bs) =
    lexemeItems place as ++ lexemeItems (place + (sourceOf as).length) bs := by
  induction as generalizing place with
  | nil => rfl
  | cons a as ih =>
    rw [List.cons_append, lexemeItems, ih, lexemeItems, List.append_assoc, sourceOf_cons,
      List.length_append, Nat.add_assoc]

theorem characterItems_append (place : Nat) (t u : Text) : characterItems place (t ++ u) =
    characterItems place t ++ characterItems (place + t.length) u := by
  induction t generalizing place with
  | nil => rfl
  | cons c t ih =>
    rw [List.cons_append, characterItems, ih, characterItems, List.cons_append, List.length_cons,
      Nat.add_assoc, Nat.add_comm 1]

theorem itemsOf_plains (place : Nat) (t : Text) :
    itemsOf place (plains t) = characterItems place t := by
  induction t generalizing place with
  | nil => rfl
  | cons c t ih => exact congrArg (⟨place, place + 1, c⟩ :: ·) (ih (place + 1))

@[simp] theorem Lexeme.textOf_pieces (l : Lexeme) : textOf l.pieces = l.text := by
  cases l with
  | run t => exact textOf_plains t
  | lifetime name => exact textOf_plains _
  | _ => exact List.append_nil _

theorem Lexeme.itemsOf_pieces (place : Nat) (l : Lexeme) :
    itemsOf place l.pieces = l.items place := by
  cases l with
  | run t => exact itemsOf_plains place t
  | lifetime name => exact itemsOf_plains place _
  | _ => rfl

theorem textOf_flatMap_pieces (ls : List Lexeme) :
    textOf (ls.flatMap Lexeme.pieces) = sourceOf ls := by
  induction ls with
  | nil => rfl
  | cons l ls ih => rw [List.flatMap_cons, textOf_append, l.textOf_pieces, ih, sourceOf_cons]

theorem itemsOf_flatMap_pieces (place : Nat) (ls : List Lexeme) :
    itemsOf place (ls.flatMap Lexeme.pieces) = lexemeItems place ls := by
  induction ls generalizing place with
  | nil => rfl
  | cons l ls ih =>
    rw [List.flatMap_cons, itemsOf_append, l.itemsOf_pieces, l.textOf_pieces, ih, lexemeItems]

/-! ## Literals -/

theorem isCut_literal {q : Char}
    (h : literal? before (c :: (t ++ rest)) = some (.literal q (c :: t)))
    (hc : c ≠ '/') : IsCut before [.literal q (c :: t)] rest :=
  ⟨⟨c, t, rfl, first_of_literal (comment?_eq_none_iff.mpr fun hn => hc hn.1) h⟩, trivial⟩

theorem stringRest_of_escaped (h : Escaped body) (rest : Text) :
    stringRest false (body ++ rest) = body.length + stringRest false rest := by
  induction h with
  | nil => simp
  | @char c t hc h ih =>
    rw [List.mem_cons, List.mem_singleton, not_or] at hc
    rw [List.cons_append, stringRest, if_neg Bool.false_ne_true, if_neg hc.2, if_neg hc.1, ih,
      List.length_cons]
    omega
  | @escape c t h ih =>
    rw [List.cons_append, List.cons_append, stringRest_backslash, ih, List.length_cons,
      List.length_cons]
    omega

theorem literal?_string (h : Escaped body) (before : Option Char) (rest : Text) :
    literal? before ((Lexeme.string body).text ++ rest) =
      some (.literal '"' (Lexeme.string body).text) := by
  have length : stringRest false (body ++ '"' :: rest) + 1 = (Lexeme.string body).text.length := by
    rw [stringRest_of_escaped h]
    simp [stringRest, Lexeme.text]
  have whole : (Lexeme.string body).text ++ rest = '"' :: (body ++ '"' :: rest) := by
    simp [Lexeme.text]
  rw [whole, literal?, length, ← whole, List.take_left]

theorem literal?_char (hc : c ≠ '\\') (before : Option Char) (rest : Text) :
    literal? before ((Lexeme.char c).text ++ rest) = some (.literal '\'' (Lexeme.char c).text) := by
  have length : charRest? (c :: '\'' :: rest) = some 2 := by
    rw [charRest?_cons hc]
    rfl
  change (charRest? (c :: '\'' :: rest)).map _ = _
  rw [length]
  rfl

theorem literal?_escape (hc : c.toNat < 128) (hbody : '\'' ∉ body) (before : Option Char)
    (rest : Text) : literal? before ((Lexeme.escape c body).text ++ rest) =
      some (.literal '\'' (Lexeme.escape c body).text) := by
  have all : ∀ d ∈ body, (d != '\'') = true := fun d hd => by
    simpa using fun he : d = '\'' => hbody (he ▸ hd)
  have taken : (body ++ '\'' :: rest).takeWhile (· != '\'') = body := by
    rw [List.takeWhile_append_of_pos all]
    simp
  have length : charRest? ('\\' :: c :: (body ++ '\'' :: rest)) = some (2 + body.length + 1) := by
    rw [charRest?, if_pos ⟨hc, by simp⟩, taken]
  have whole : (Lexeme.escape c body).text ++ rest =
      '\'' :: '\\' :: c :: (body ++ '\'' :: rest) := by simp [Lexeme.text]
  have total : 2 + body.length + 1 + 1 = (Lexeme.escape c body).text.length := by
    simp [Lexeme.text]
    omega
  rw [whole, literal?, length, Option.map_some, total, ← whole, List.take_left]

/-- A pattern that starts like no other part of it is found where it first stands. -/
theorem through_eq {q : Char} (hq : q ∉ hashes) (h : ¬ q :: hashes <:+: body) (rest : Text) :
    through (q :: hashes) (body ++ (q :: hashes ++ rest)) = body.length + (q :: hashes).length := by
  induction body with
  | nil =>
    have found : (Text.stripStart (q :: hashes) (q :: (hashes ++ rest))).isSome = true :=
      stripStart_isSome_iff.mpr ⟨rest, rfl⟩
    rw [List.nil_append, List.cons_append, through, if_pos found, List.length_nil, Nat.zero_add]
  | cons c body ih =>
    have later : ¬ q :: hashes <:+: body := fun hin =>
      h (hin.trans (List.suffix_cons c body).isInfix)
    have notHere : ¬ q :: hashes <+: (c :: body) ++ (q :: hashes ++ rest) := fun hp => by
      rcases List.prefix_or_prefix_of_prefix hp (List.prefix_append _ _) with inside | ⟨k, hk⟩
      · exact h inside.isInfix
      · -- The pattern would go on with its own first character.
        rw [← hk, List.prefix_append_right_inj] at hp
        obtain ⟨rfl, hrest⟩ := List.cons.inj hk
        cases k with
        | nil => exact h ⟨[], [], by simpa using hk.symm⟩
        | cons d k =>
          obtain ⟨rfl, -⟩ := List.cons_prefix_cons.mp hp
          exact hq (hrest ▸ List.mem_append_right body List.mem_cons_self)
    rw [List.cons_append] at notHere
    rw [List.cons_append, through, if_neg fun hs => notHere (stripStart_isSome_iff.mp hs), ih later]
    simp only [List.length_cons]
    omega

theorem rawRest?_raw {n : Nat} (h : ¬ '"' :: List.replicate n '#' <:+: body) (rest : Text) :
    rawRest? (List.replicate n '#' ++ '"' :: (body ++ ('"' :: List.replicate n '#' ++ rest))) =
      some (n + 1 + (body.length + (n + 1))) := by
  have signs : ∀ c ∈ List.replicate n '#', c = '#' := fun c hc => (List.mem_replicate.mp hc).2
  rw [rawRest?_eq _ _ signs, through_eq (fun hq => absurd (signs _ hq) (by decide)) h]
  simp

theorem literal?_raw {byte : Bool} {n : Nat} (h : ¬ '"' :: List.replicate n '#' <:+: body)
    (hb : before.any continuesName = false) (rest : Text) :
    literal? before ((Lexeme.raw byte n body).text ++ rest) =
      some (.literal '"' (Lexeme.raw byte n body).text) := by
  have length := rawRest?_raw h rest
  cases byte with
  | false =>
    have whole : (Lexeme.raw false n body).text ++ rest = 'r' :: (List.replicate n '#' ++
        '"' :: (body ++ ('"' :: List.replicate n '#' ++ rest))) := by simp [Lexeme.text]
    have total : n + 1 + (body.length + (n + 1)) + 1 = (Lexeme.raw false n body).text.length := by
      simp [Lexeme.text]
      omega
    rw [whole, literal?, hb, if_neg Bool.false_ne_true, length, Option.map_some, total, ← whole,
      List.take_left]
  | true =>
    have whole : (Lexeme.raw true n body).text ++ rest = 'b' :: 'r' :: (List.replicate n '#' ++
        '"' :: (body ++ ('"' :: List.replicate n '#' ++ rest))) := by simp [Lexeme.text]
    have total : n + 1 + (body.length + (n + 1)) + 2 = (Lexeme.raw true n body).text.length := by
      simp [Lexeme.text]
      omega
    rw [whole, literal?, hb, if_neg Bool.false_ne_true, length, Option.map_some, total, ← whole,
      List.take_left]

/-! ## Comments -/

theorem blockComment_of_endsComment (h : EndsComment body) (depth : Nat) (rest : Text) :
    blockComment (depth + 1) (body ++ rest) =
      body.length + if depth = 0 then 0 else blockComment depth rest := by
  induction h generalizing depth rest with
  | close =>
    rw [List.cons_append, List.cons_append, List.nil_append, blockComment]
    rcases Nat.eq_zero_or_pos depth with rfl | hd
    · rfl
    · rw [if_neg (by omega), if_neg (by omega), Nat.add_sub_cancel, List.length_cons,
        List.length_cons, List.length_nil, Nat.add_comm]
  | @nested t u ht hu iht ihu =>
    rw [List.cons_append, List.cons_append, List.append_assoc, blockComment, iht, ihu,
      if_neg (Nat.succ_ne_zero depth)]
    simp only [List.length_cons, List.length_append]
    omega
  | @char c d t hopen hclose h ih =>
    have step := ih depth rest
    rw [List.cons_append] at step
    rw [List.cons_append, List.cons_append, blockComment_cons hopen hclose, step]
    simp only [List.length_cons]
    omega

theorem comment?_block (h : EndsComment body) (rest : Text) :
    comment? ((Lexeme.block body).text ++ rest) = some (.comment (Lexeme.block body).text) := by
  have length : blockComment 0 ((Lexeme.block body).text ++ rest) =
      (Lexeme.block body).text.length := by
    simp only [Lexeme.text, List.cons_append, blockComment, blockComment_of_endsComment h]
    simp
  have start : comment? ((Lexeme.block body).text ++ rest) = some (.comment
      (((Lexeme.block body).text ++ rest).take
        (blockComment 0 ((Lexeme.block body).text ++ rest)))) :=
    rfl
  rw [start, length, List.take_left]

theorem comment?_line (h : '\n' ∉ body) (hrest : rest = [] ∨ rest.head? = some '\n') :
    comment? ((Lexeme.line body).text ++ rest) = some (.comment (Lexeme.line body).text) := by
  have all : ∀ c ∈ (Lexeme.line body).text, (c != '\n') = true := by
    refine List.forall_mem_cons.mpr ⟨rfl, List.forall_mem_cons.mpr ⟨rfl, fun c hc => ?_⟩⟩
    simpa using fun he : c = '\n' => h (he ▸ hc)
  have stops : rest.takeWhile (· != '\n') = [] := by
    rcases hrest with rfl | hline
    · rfl
    · obtain ⟨u, rfl⟩ := List.head?_eq_some_iff.mp hline
      rfl
  have taken : ((Lexeme.line body).text ++ rest).takeWhile (· != '\n') =
      (Lexeme.line body).text := by
    rw [List.takeWhile_append_of_pos all, stops, List.append_nil]
  exact congrArg (fun t => some (Piece.comment t)) taken

/-! ## Code -/

/-- Characters of code are pieces of their own if no literal and no comment starts at one of
them. -/
theorem isCut_plains (h : ∀ u c v, t = u ++ c :: v → comment? (c :: (v ++ rest)) = none ∧
    literal? (lastOf before u) (c :: (v ++ rest)) = none) : IsCut before (plains t) rest := by
  induction t generalizing before with
  | nil => trivial
  | cons c t ih =>
    obtain ⟨hcomment, hliteral⟩ := h [] c t rfl
    refine ⟨⟨c, [], rfl, ?_⟩, ih fun u d v huv => ?_⟩
    · change first before c (textOf (plains t) ++ rest) = _
      rw [textOf_plains]
      exact first_of_none hcomment hliteral
    · have deeper := h (c :: u) d v (by rw [huv]; rfl)
      rwa [lastOf_cons] at deeper

/-- Only quotes and two letters start literals. -/
theorem literal?_eq_none (hc : c ∉ ['"', '\'', 'r', 'b']) (before : Option Char) (t : Text) :
    literal? before (c :: t) = none := by
  simp only [List.mem_cons, List.not_mem_nil, or_false, not_or] at hc
  obtain ⟨hdouble, hsingle, hr, hb⟩ := hc
  unfold literal?
  split
  · exact absurd (List.cons.inj ‹_›).1 hdouble
  · exact absurd (List.cons.inj ‹_›).1 hsingle
  · exact absurd (List.cons.inj ‹_›).1 hr
  · exact absurd (List.cons.inj ‹_›).1 hb
  · rfl

/-- No comment starts in a run. -/
theorem Lexeme.IsSound.comment?_eq_none (h : (Lexeme.run t).IsSound) (ht : t = u ++ c :: v)
    (rest : Text) : comment? (c :: (v ++ rest)) = none := by
  obtain ⟨-, hline, hblock, hlast⟩ := h
  refine comment?_eq_none_iff.mpr ?_
  rintro ⟨rfl, hnext⟩
  cases v with
  | nil => exact hlast (by simp [ht])
  | cons d v =>
    have next : ∀ e, (d :: v ++ rest).head? = some e → ['/', e] <:+: t := by
      rintro _ ⟨⟩
      exact ⟨u, v, by simp [ht]⟩
    exact hnext.elim (fun hn => hline (next _ hn)) (fun hn => hblock (next _ hn))

/-- The quote of a lifetime starts no literal. -/
theorem literal?_lifetime (h : (Lexeme.lifetime name).IsSound) (hrest : rest.head? ≠ some '\'')
    (before : Option Char) : literal? before ('\'' :: (name ++ rest)) = none := by
  obtain ⟨hne, hname⟩ := h
  obtain ⟨c, name, rfl⟩ := List.exists_cons_of_ne_nil hne
  obtain ⟨hc, htail⟩ := List.forall_mem_cons.mp hname
  have next : (name ++ rest).head? ≠ some '\'' := by
    cases name with
    | nil => exact hrest
    | cons d name =>
      rintro ⟨⟩
      exact htail '\'' List.mem_cons_self (by decide)
  have none : charRest? (c :: (name ++ rest)) = none := by
    rw [charRest?_cons fun he => hc (by simp [he]), if_neg next]
  change (charRest? (c :: (name ++ rest))).map _ = _
  rw [none, Option.map_none]

end SchemaDrift.Code
