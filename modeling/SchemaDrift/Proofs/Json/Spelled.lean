import Mathlib.Data.List.Basic
import SchemaDrift.Json.Printer
import SchemaDrift.Json.Reader
import SchemaDrift.Proofs.Text.Parts

namespace SchemaDrift.Json

/-!
# Reading what is printed

A text spells some tokens, with blanks between them. What is printed on one line or over several
spells the tokens of the value, and these are read as the value.
-/

variable {c : Char} {t u rest : Text} {j : Json} {ts : List Token} {stack : List Frame}

/-- An induction over the parts of a value. -/
theorem inductionOn {P : Json → Prop} (j : Json) (null : P .null) (bool : ∀ b, P (.bool b))
    (number : ∀ t, P (.number t)) (text : ∀ t, P (.text t))
    (list : ∀ items, (∀ j ∈ items, P j) → P (.list items))
    (object : ∀ members, (∀ m ∈ members, P m.2) → P (.object members))
    (unreadable : P .unreadable) : P j :=
  @Json.rec P (fun items => ∀ j ∈ items, P j) (fun members => ∀ m ∈ members, P m.2) (fun m => P m.2)
    null bool number text list object unreadable nofun
    (fun _ _ hj hitems => List.forall_mem_cons.mpr ⟨hj, hitems⟩) nofun
    (fun _ _ hm hmembers => List.forall_mem_cons.mpr ⟨hm, hmembers⟩) (fun _ _ hj => hj) j

/-! ## Quoted texts -/

/-- How a character is read that was printed in a quoted text. -/
def pieceOf (c : Char) : Piece :=
  if c ∈ ['"', '\\', '\n', '\r', '\t', '\x08', '\x0c'] then .char c
  else if c.toNat < 0x20 then .unit c.toNat
  else .char c

/-- The number of a control character has four digits. -/
theorem exists_unit {n : Nat} (h : n < 0x20) : ∃ a b c d,
    Text.padZero 4 (Nat.toDigits 16 n) = [a, b, c, d] ∧ unit? a b c d = some n := by
  have read : ∀ n < 0x20,
      Text.padZero 4 (Nat.toDigits 16 n) =
        ['0', '0', Nat.digitChar (n / 16), Nat.digitChar (n % 16)] ∧
        unit? '0' '0' (Nat.digitChar (n / 16)) (Nat.digitChar (n % 16)) = some n := by
          decide +kernel
  exact ⟨_, _, _, _, read n h⟩

/-- An escape of two characters stands for one. -/
theorem quoted?_short {e : Char} (he : escaped? e = some c) (rest : Text) :
    quoted? ('\\' :: e :: rest) = (quoted? rest).map fun read => (.char c :: read.1, read.2) := by
  have plain : e ≠ 'u' := by
    rintro rfl
    cases he
  rw [quoted?]
  · rw [he]
    cases quoted? rest <;> rfl
  · rintro a b c d rest' rfl -
    exact plain rfl

theorem quoted?_escape (c : Char) (rest : Text) : quoted? (escape c ++ rest) =
    (quoted? rest).map fun read => (pieceOf c :: read.1, read.2) := by
  by_cases hshort : c ∈ ['"', '\\', '\n', '\r', '\t', '\x08', '\x0c']
  · have own : pieceOf c = .char c := if_pos hshort
    rw [own]
    simp only [List.mem_cons, List.not_mem_nil, or_false] at hshort
    rcases hshort with rfl | rfl | rfl | rfl | rfl | rfl | rfl <;> exact quoted?_short rfl rest
  · have others := hshort
    simp only [List.mem_cons, List.not_mem_nil, or_false, not_or] at others
    obtain ⟨hquote, hslash, hn, hr, ht, hb, hf⟩ := others
    rw [pieceOf, if_neg hshort, escape, if_neg hquote, if_neg hslash, if_neg hn, if_neg hr,
      if_neg ht, if_neg hb, if_neg hf]
    split
    · rename_i hcontrol
      obtain ⟨x, y, z, w, hdigits, hunit⟩ := exists_unit hcontrol
      rw [hdigits]
      change quoted? ('\\' :: 'u' :: x :: y :: z :: w :: rest) = _
      rw [quoted?, hunit]
      cases quoted? rest <;> rfl
    · rename_i hvisible
      rw [List.singleton_append, quoted?]
      · rw [if_neg hquote, if_neg hvisible]
        cases quoted? rest <;> rfl
      · rintro a b c d rest' rfl -
        exact hslash rfl
      · rintro e rest' rfl -
        exact hslash rfl

theorem quoted?_flatMap_escape (s rest : Text) : quoted? (s.flatMap escape ++ '"' :: rest) =
    some (s.map pieceOf, rest) := by
  induction s with
  | nil => rfl
  | cons c s ih =>
    rw [List.flatMap_cons, List.append_assoc, quoted?_escape, ih]
    rfl

theorem combine_unit {n : Nat} (h : n < 0xD800) (ps : List Piece) :
    Piece.combine (.unit n :: ps) = (Piece.combine ps).map (Char.ofNat n :: ·) := by
  have high : ¬ (0xD800 ≤ n ∧ n < 0xDC00) := by omega
  have low : ¬ (0xDC00 ≤ n ∧ n < 0xE000) := by omega
  have neither : ¬ (0xD800 ≤ n ∧ n < 0xE000) := by omega
  cases ps with
  | nil => simp only [Piece.combine, if_neg neither]
  | cons p ps =>
    cases p with
    | char c => simp only [Piece.combine, if_neg neither]
    | unit m => rw [Piece.combine, if_neg high, if_neg low]

/-- The pieces of a quoted text combine to the text. -/
theorem combine_map_pieceOf (s : Text) : Piece.combine (s.map pieceOf) = some s := by
  induction s with
  | nil => rfl
  | cons c s ih =>
    rw [List.map_cons, pieceOf]
    split
    · rw [Piece.combine, ih, Option.map_some]
    · split
      · rename_i hc
        rw [combine_unit (by omega), ih, Option.map_some, Char.ofNat_toNat]
      · rw [Piece.combine, ih, Option.map_some]

/-! ## Tokens -/

/-- Whether a text spells some tokens. -/
inductive Spells : List Token → Text → Prop
  | nil : Spells [] []
  | blank {c : Char} {ts : List Token} {t : Text} (hc : c ∈ [' ', '\t', '\n', '\r'])
      (h : Spells ts t) : Spells ts (c :: t)
  | mark {c : Char} {token : Token} {ts : List Token} {t : Text} (hc : punctuation? c = some token)
      (h : Spells ts t) : Spells (token :: ts) (c :: t)
  | text (s : Text) {ts : List Token} {t : Text} (h : Spells ts t) :
      Spells (.scalar (.text s) :: ts) (quote s ++ t)
  /-- A word or a number goes on as far as it can. -/
  | word {c : Char} {w : Text} {value : Json} {ts : List Token} {t : Text}
      (hw : scalar? (c :: w) = some value) (hall : ∀ d ∈ c :: w, isScalarChar d = true)
      (hnext : ∀ d ∈ t.head?, isScalarChar d = false) (h : Spells ts t) :
      Spells (.scalar value :: ts) (c :: w ++ t)

/-- A mark is no blank, no quote and no part of a word. -/
theorem not_scalarChar_of_punctuation? {token : Token} (h : punctuation? c = some token) :
    c ∉ [' ', '\t', '\n', '\r', '"'] ∧ isScalarChar c = false := by
  unfold punctuation? at h
  split at h
  all_goals first | exact ⟨by decide, by decide⟩ | cases h

theorem takeWhile_word {w : Text} (hall : ∀ d ∈ w, isScalarChar d = true)
    (hnext : ∀ d ∈ t.head?, isScalarChar d = false) :
    (w ++ t).takeWhile isScalarChar = w ∧ (w ++ t).dropWhile isScalarChar = t := by
  rw [List.takeWhile_append_of_pos hall, List.dropWhile_append_of_pos hall]
  cases t with
  | nil => simp
  | cons d t =>
    have stop : isScalarChar d = false := hnext d rfl
    simp [stop]

/-- The tokens of a text are those that it spells. -/
theorem tokens?_of_spells (h : Spells ts t) : tokens? t = some ts := by
  induction h with
  | nil => rw [tokens?]
  | @blank c ts t hc h ih =>
    have blank : c = ' ' ∨ c = '\t' ∨ c = '\n' ∨ c = '\r' := by simpa using hc
    rw [tokens?, if_pos blank, ih]
  | @mark c token ts t hc h ih =>
    have others := (not_scalarChar_of_punctuation? hc).1
    simp only [List.mem_cons, List.not_mem_nil, or_false, not_or] at others
    obtain ⟨hspace, htab, hn, hr, hquote⟩ := others
    rw [tokens?, if_neg (by simp [hspace, htab, hn, hr]), if_neg hquote, hc]
    simp only [ih, Option.map_some]
  | @text s ts t h ih =>
    have read : quoted? (s.flatMap escape ++ ['"'] ++ t) = some (s.map pieceOf, t) := by
      rw [List.append_assoc]
      exact quoted?_flatMap_escape s t
    change tokens? ('"' :: (s.flatMap escape ++ ['"'] ++ t)) = _
    rw [tokens?, if_neg (by decide), if_pos rfl]
    split
    · rename_i hnone
      rw [read] at hnone
      cases hnone
    · rename_i pieces rest hsome
      rw [read] at hsome
      cases hsome
      simp only [combine_map_pieceOf, ih, Option.map_some]
  | @word c w value ts t hw hall hnext h ih =>
    obtain ⟨hc, htail⟩ := List.forall_mem_cons.mp hall
    have blanks : ∀ d ∈ [' ', '\t', '\n', '\r', '"'], isScalarChar d = false := by decide
    have others : c ∉ [' ', '\t', '\n', '\r', '"'] := fun hm => by
      rw [blanks c hm] at hc
      cases hc
    have noMark : punctuation? c = none := by
      by_contra hmark
      obtain ⟨token, htoken⟩ := Option.ne_none_iff_exists'.mp hmark
      rw [(not_scalarChar_of_punctuation? htoken).2] at hc
      cases hc
    simp only [List.mem_cons, List.not_mem_nil, or_false, not_or] at others
    obtain ⟨hspace, htab, hn, hr, hquote⟩ := others
    obtain ⟨htake, hdrop⟩ := takeWhile_word htail hnext
    rw [List.cons_append, tokens?, if_neg (by simp [hspace, htab, hn, hr]), if_neg hquote, noMark]
    simp only [htake, hdrop, hw, ih, Option.map_some]

/-! ## Tokens of a value -/

mutual

def tokensOf : Json → List Token
  | .list items => .openList :: (tokensOfItems items ++ [.closeList])
  | .object members => .openObject :: (tokensOfMembers members ++ [.closeObject])
  | value => [.scalar value]

def tokensOfItems : List Json → List Token
  | [] => []
  | [item] => tokensOf item
  | item :: rest => tokensOf item ++ .comma :: tokensOfItems rest

def tokensOfMembers : List (Text × Json) → List Token
  | [] => []
  | [(key, value)] => .scalar (.text key) :: .colon :: tokensOf value
  | (key, value) :: rest =>
    .scalar (.text key) :: .colon :: (tokensOf value ++ .comma :: tokensOfMembers rest)

end

mutual

/-- Whether every number in the value is spelled as one, and nothing in it is unreadable. -/
def IsSpelled : Json → Prop
  | .number literal => isNumber literal = true ∧ ∀ c ∈ literal, isScalarChar c = true
  | .list items => AreSpelled items
  | .object members => MembersSpelled members
  | .unreadable => False
  | _ => True

def AreSpelled : List Json → Prop
  | [] => True
  | item :: rest => item.IsSpelled ∧ AreSpelled rest

def MembersSpelled : List (Text × Json) → Prop
  | [] => True
  | (_, value) :: rest => value.IsSpelled ∧ MembersSpelled rest

end

/-! ## Reading the tokens of a value -/

/-- The first token of a value is no closing bracket. -/
theorem foldlM_firstItem (j : Json) (done : List Json) (ts : List Token) (stack : List Frame) :
    (tokensOf j ++ ts).foldlM step (.firstItem, .list done :: stack) =
      (tokensOf j ++ ts).foldlM step (.value, .list done :: stack) := by
  cases j <;> rfl

theorem foldlM_items {items : List Json} (hne : items ≠ []) (h : ∀ j ∈ items, ∀ ts stack,
    (tokensOf j ++ ts).foldlM step (.value, stack) = ts.foldlM step (.next j, stack))
    (done : List Json) (ts : List Token) (stack : List Frame) :
    (tokensOfItems items ++ .closeList :: ts).foldlM step (.value, .list done :: stack) =
      ts.foldlM step (.next (.list (done.reverse ++ items)), stack) := by
  induction items generalizing done with
  | nil => exact absurd rfl hne
  | cons item rest ih =>
    obtain ⟨hitem, hrest⟩ := List.forall_mem_cons.mp h
    cases rest with
    | nil =>
      rw [tokensOfItems, hitem, List.foldlM_cons]
      change ts.foldlM step (.next (.list (item :: done).reverse), stack) = _
      rw [List.reverse_cons]
    | cons next rest =>
      rw [tokensOfItems, List.append_assoc, hitem, List.cons_append, List.foldlM_cons]
      · change (tokensOfItems (next :: rest) ++ .closeList :: ts).foldlM step
          (.value, .list (item :: done) :: stack) = _
        rw [ih nofun hrest, List.reverse_cons, List.append_assoc, List.singleton_append]
      · nofun

theorem foldlM_members {members : List (Text × Json)} (hne : members ≠ [])
    (h : ∀ m ∈ members, ∀ ts stack,
      (tokensOf m.2 ++ ts).foldlM step (.value, stack) = ts.foldlM step (.next m.2, stack))
    (done : List (Text × Json)) (ts : List Token) (stack : List Frame) :
    (tokensOfMembers members ++ .closeObject :: ts).foldlM step (.key (some done), stack) =
      ts.foldlM step (.next (.object (done.reverse ++ members)), stack) := by
  induction members generalizing done with
  | nil => exact absurd rfl hne
  | cons m rest ih =>
    obtain ⟨key, value⟩ := m
    obtain ⟨hvalue, hrest⟩ := List.forall_mem_cons.mp h
    cases rest with
    | nil =>
      change (tokensOf value ++ .closeObject :: ts).foldlM step
        (.value, .object (some done) (.text key) :: stack) = _
      rw [hvalue, List.foldlM_cons]
      change ts.foldlM step (.next (.object ((key, value) :: done).reverse), stack) = _
      rw [List.reverse_cons]
    | cons next rest =>
      change (tokensOf value ++ .comma :: tokensOfMembers (next :: rest) ++
        .closeObject :: ts).foldlM
        step (.value, .object (some done) (.text key) :: stack) = _
      rw [List.append_assoc, hvalue, List.cons_append, List.foldlM_cons]
      change (tokensOfMembers (next :: rest) ++ .closeObject :: ts).foldlM step
        (.key (some ((key, value) :: done)), stack) = _
      rw [ih nofun hrest, List.reverse_cons, List.append_assoc, List.singleton_append]

/-- The tokens of a value are read as the value. -/
theorem foldlM_tokensOf (j : Json) (ts : List Token) (stack : List Frame) :
    (tokensOf j ++ ts).foldlM step (.value, stack) = ts.foldlM step (.next j, stack) := by
  induction j using inductionOn generalizing ts stack with
  | null => rfl
  | bool b => rfl
  | number t => rfl
  | text t => rfl
  | unreadable => rfl
  | list items ih =>
    cases items with
    | nil => rfl
    | cons item rest =>
      have all := foldlM_items (List.cons_ne_nil item rest) ih [] ts stack
      rw [tokensOf, List.cons_append, List.append_assoc, List.foldlM_cons, List.singleton_append]
      change (tokensOfItems (item :: rest) ++ .closeList :: ts).foldlM step
        (.firstItem, .list [] :: stack) = _
      refine Eq.trans ?_ all
      cases rest with
      | nil => exact foldlM_firstItem item _ _ _
      | cons next rest =>
        rw [tokensOfItems, List.append_assoc]
        · exact foldlM_firstItem item _ _ _
        · nofun
  | object members ih =>
    cases members with
    | nil => rfl
    | cons m rest =>
      have all := foldlM_members (List.cons_ne_nil m rest) ih [] ts stack
      rw [tokensOf, List.cons_append, List.append_assoc, List.foldlM_cons, List.singleton_append]
      change (tokensOfMembers (m :: rest) ++ .closeObject :: ts).foldlM step (.firstKey, stack) = _
      refine Eq.trans ?_ all
      cases rest <;> rfl

theorem read?_of_spells (h : Spells (tokensOf j) t) : read? t = some j := by
  have all := foldlM_tokensOf j [] []
  rw [List.append_nil] at all
  rw [read?, tokens?_of_spells h, Option.bind_some, all]
  rfl

/-! ## Printing the tokens of a value -/

/-- Whether a text spells the tokens in front of any text that does not go on with a word. -/
def Prints (ts : List Token) (t : Text) : Prop := ∀ us u, Spells us u →
  (∀ c ∈ u.head?, isScalarChar c = false) → Spells (ts ++ us) (t ++ u)

theorem Prints.spells (h : Prints ts t) : Spells ts t := by
  simpa using h [] [] .nil nofun

theorem Prints.append {us : List Token} (ht : Prints ts t) (hu : Prints us (c :: u))
    (hc : isScalarChar c = false) : Prints (ts ++ us) (t ++ c :: u) := by
  intro vs v hv hnext
  rw [List.append_assoc, List.append_assoc]
  refine ht _ _ (hu vs v hv hnext) ?_
  rintro _ ⟨⟩
  exact hc

theorem Prints.mark {token : Token} (h : Prints ts t) (hc : punctuation? c = some token) :
    Prints (token :: ts) (c :: t) := fun us u hu hnext => .mark hc (h us u hu hnext)

theorem Prints.blanks (h : Prints ts t) (hu : ∀ c ∈ u, c ∈ [' ', '\t', '\n', '\r']) :
    Prints ts (u ++ t) := by
  induction u with
  | nil => exact h
  | cons c u ih =>
    obtain ⟨hc, hrest⟩ := List.forall_mem_cons.mp hu
    exact fun us v hv hnext => .blank hc (ih hrest us v hv hnext)

theorem prints_mark {token : Token} (hc : punctuation? c = some token) : Prints [token] [c] :=
  Prints.mark (fun _ _ hu _ => hu) hc

theorem prints_text (s : Text) : Prints [.scalar (.text s)] (quote s) := fun _ _ hu _ => .text s hu

theorem prints_word {w : Text} {value : Json} (hw : scalar? (c :: w) = some value)
    (hall : ∀ d ∈ c :: w, isScalarChar d = true) : Prints [.scalar value] (c :: w) :=
  fun _ _ hu hnext => .word hw hall hnext hu

theorem prints_number {literal : Text} (h : (number literal).IsSpelled) :
    Prints [.scalar (.number literal)] literal := by
  obtain ⟨hnumber, hall⟩ := h
  have words : ∀ w ∈ ([[], "null", "true", "false"] : List Text), isNumber w = false := by decide
  have others : literal ∉ ([[], "null", "true", "false"] : List Text) := fun hm => by
    rw [words literal hm] at hnumber
    cases hnumber
  simp only [List.mem_cons, List.not_mem_nil, or_false, not_or] at others
  obtain ⟨hne, hnull, htrue, hfalse⟩ := others
  obtain ⟨c, w, rfl⟩ := List.exists_cons_of_ne_nil hne
  refine prints_word ?_ hall
  rw [scalar?, if_neg hnull, if_neg htrue, if_neg hfalse, if_pos hnumber]

theorem areSpelled_iff {items : List Json} : AreSpelled items ↔ ∀ j ∈ items, j.IsSpelled := by
  induction items with
  | nil => simp [AreSpelled]
  | cons item rest ih => rw [AreSpelled, ih, List.forall_mem_cons]

theorem membersSpelled_iff {members : List (Text × Json)} :
    MembersSpelled members ↔ ∀ m ∈ members, m.2.IsSpelled := by
  induction members with
  | nil => simp [MembersSpelled]
  | cons m rest ih => rw [MembersSpelled, ih, List.forall_mem_cons]

/-! ## Layouts -/

/-- Items with commas between them, each behind the same blanks. -/
def layoutItems (lead : Text) (print : Json → Text) : List Json → Text
  | [] => []
  | [item] => lead ++ print item
  | item :: rest => lead ++ (print item ++ ',' :: layoutItems lead print rest)

/-- Members with commas between them, each behind the same blanks and with the same ones behind its
colon. -/
def layoutMembers (lead gap : Text) (print : Json → Text) : List (Text × Json) → Text
  | [] => []
  | [(key, value)] => lead ++ (quote key ++ ':' :: (gap ++ print value))
  | (key, value) :: rest =>
    lead ++ (quote key ++ ':' :: (gap ++ (print value ++ ',' :: layoutMembers lead gap print rest)))

section Layout

variable (lead gap : Text) {print : Json → Text} (hlead : ∀ c ∈ lead, c ∈ [' ', '\t', '\n', '\r'])
include hlead

theorem prints_layoutItems {items : List Json} (h : ∀ j ∈ items, Prints (tokensOf j) (print j)) :
    Prints (tokensOfItems items) (layoutItems lead print items) := by
  induction items with
  | nil => exact fun _ _ hu _ => hu
  | cons item rest ih =>
    obtain ⟨hitem, hrest⟩ := List.forall_mem_cons.mp h
    cases rest with
    | nil => exact hitem.blanks hlead
    | cons next rest =>
      have comma : Prints (.comma :: tokensOfItems (next :: rest))
          (',' :: layoutItems lead print (next :: rest)) := (ih hrest).mark rfl
      exact (hitem.append comma (by decide)).blanks hlead

theorem prints_layoutMembers (hgap : ∀ c ∈ gap, c ∈ [' ', '\t', '\n', '\r'])
    {members : List (Text × Json)} (h : ∀ m ∈ members, Prints (tokensOf m.2) (print m.2)) :
    Prints (tokensOfMembers members) (layoutMembers lead gap print members) := by
  induction members with
  | nil => exact fun _ _ hu _ => hu
  | cons m rest ih =>
    obtain ⟨key, value⟩ := m
    obtain ⟨hvalue, hrest⟩ := List.forall_mem_cons.mp h
    cases rest with
    | nil =>
      have colon : Prints (.colon :: tokensOf value) (':' :: (gap ++ print value)) :=
        (hvalue.blanks hgap).mark rfl
      exact ((prints_text key).append colon (by decide)).blanks hlead
    | cons next rest =>
      have comma : Prints (.comma :: tokensOfMembers (next :: rest))
          (',' :: layoutMembers lead gap print (next :: rest)) := (ih hrest).mark rfl
      have colon : Prints (.colon :: (tokensOf value ++ .comma :: tokensOfMembers (next :: rest)))
          (':' :: (gap ++ (print value ++ ',' :: layoutMembers lead gap print (next :: rest)))) :=
        ((hvalue.append comma (by decide)).blanks hgap).mark rfl
      exact ((prints_text key).append colon (by decide)).blanks hlead

end Layout

theorem compactItems_eq (items : List Json) :
    compactItems items = layoutItems [] compact items := by
  induction items with
  | nil => rfl
  | cons item rest ih =>
    cases rest with
    | nil => rfl
    | cons next rest =>
      change item.compact ++ [','] ++ compactItems (next :: rest) =
        item.compact ++ ',' :: layoutItems [] compact (next :: rest)
      rw [ih, List.append_assoc, List.singleton_append]

theorem compactMembers_eq (members : List (Text × Json)) :
    compactMembers members = layoutMembers [] [] compact members := by
  induction members with
  | nil => rfl
  | cons m rest ih =>
    obtain ⟨key, value⟩ := m
    cases rest with
    | nil => exact List.append_assoc (quote key) [':'] value.compact
    | cons next rest =>
      change quote key ++ [':'] ++ value.compact ++ [','] ++ compactMembers (next :: rest) =
        quote key ++ ':' :: (value.compact ++ ',' :: layoutMembers [] [] compact (next :: rest))
      rw [ih]
      simp only [List.append_assoc, List.cons_append, List.nil_append]

theorem indentedItems_eq (level : Nat) (items : List Json) :
    indentedItems level items = layoutItems (newline level) (indented level) items := by
  induction items with
  | nil => rfl
  | cons item rest ih =>
    cases rest with
    | nil => rfl
    | cons next rest =>
      change newline level ++ item.indented level ++ [','] ++ indentedItems level (next :: rest) =
        newline level ++ (item.indented level ++
          ',' :: layoutItems (newline level) (indented level) (next :: rest))
      rw [ih]
      simp only [List.append_assoc, List.singleton_append]

theorem indentedMembers_eq (level : Nat) (members : List (Text × Json)) :
    indentedMembers level members =
      layoutMembers (newline level) [' '] (indented level) members := by
  induction members with
  | nil => rfl
  | cons m rest ih =>
    obtain ⟨key, value⟩ := m
    cases rest with
    | nil =>
      change newline level ++ quote key ++ [':', ' '] ++ value.indented level =
        newline level ++ (quote key ++ ':' :: ([' '] ++ value.indented level))
      simp only [List.append_assoc, List.cons_append, List.nil_append]
    | cons next rest =>
      change newline level ++ quote key ++ [':', ' '] ++ value.indented level ++ [','] ++
          indentedMembers level (next :: rest) =
        newline level ++ (quote key ++ ':' :: ([' '] ++ (value.indented level ++
          ',' :: layoutMembers (newline level) [' '] (indented level) (next :: rest))))
      rw [ih]
      simp only [List.append_assoc, List.cons_append, List.nil_append]

/-! ## Values -/

/-- A value on one line spells its tokens. -/
theorem prints_compact (h : j.IsSpelled) : Prints (tokensOf j) j.compact := by
  induction j using inductionOn with
  | null => exact prints_word rfl (by decide)
  | bool b => cases b <;> exact prints_word rfl (by decide)
  | number t => exact prints_number h
  | text t => exact prints_text t
  | unreadable => cases h
  | list items ih =>
    have inner := prints_layoutItems [] nofun fun j hj => ih j hj (areSpelled_iff.mp h j hj)
    rw [tokensOf, compact, compactItems_eq, List.append_assoc]
    exact (inner.append (prints_mark rfl) (by decide)).mark rfl
  | object members ih =>
    have inner := prints_layoutMembers [] [] nofun nofun fun m hm =>
      ih m hm (membersSpelled_iff.mp h m hm)
    rw [tokensOf, compact, compactMembers_eq, List.append_assoc]
    exact (inner.append (prints_mark rfl) (by decide)).mark rfl

theorem blank_of_mem_newline {level : Nat} (h : c ∈ newline level) :
    c ∈ [' ', '\t', '\n', '\r'] := by
  rcases List.mem_cons.mp h with rfl | h
  · decide
  · rw [(List.mem_replicate.mp h).2]
    decide

/-- A value over several lines spells the same tokens. -/
theorem prints_indented (h : j.IsSpelled) (level : Nat) :
    Prints (tokensOf j) (j.indented level) := by
  induction j using inductionOn generalizing level with
  | null => exact prints_word rfl (by decide)
  | bool b => cases b <;> exact prints_word rfl (by decide)
  | number t => exact prints_number h
  | text t => exact prints_text t
  | unreadable => cases h
  | list items ih =>
    cases items with
    | nil => exact (prints_mark rfl).mark rfl
    | cons item rest =>
      have inner :=
        prints_layoutItems (newline (level + 1)) (fun c => blank_of_mem_newline) fun j hj =>
        ih j hj (areSpelled_iff.mp h j hj) (level + 1)
      have close : Prints [.closeList] (newline level ++ [']']) :=
        (prints_mark rfl).blanks fun c => blank_of_mem_newline
      rw [tokensOf, indented, indentedItems_eq, List.append_assoc, List.append_assoc]
      · exact (inner.append close (by decide)).mark rfl
      · nofun
  | object members ih =>
    cases members with
    | nil => exact (prints_mark rfl).mark rfl
    | cons m rest =>
      have inner := prints_layoutMembers (newline (level + 1)) [' ']
        (fun c => blank_of_mem_newline) (by decide) fun m hm =>
          ih m hm (membersSpelled_iff.mp h m hm) (level + 1)
      have close : Prints [.closeObject] (newline level ++ ['\x7d']) :=
        (prints_mark rfl).blanks fun c => blank_of_mem_newline
      rw [tokensOf, indented, indentedMembers_eq, List.append_assoc, List.append_assoc]
      · exact (inner.append close (by decide)).mark rfl
      · nofun

/-- What is printed is read as the same value. -/
theorem read?_compact (h : j.IsSpelled) : read? j.compact = some j :=
  read?_of_spells (prints_compact h).spells

theorem read?_pretty (h : j.IsSpelled) : read? j.pretty = some j :=
  read?_of_spells (prints_indented h 0).spells

end SchemaDrift.Json
