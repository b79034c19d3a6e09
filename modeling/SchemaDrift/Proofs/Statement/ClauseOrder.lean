import SchemaDrift.Proofs.Statement.Clauses
import SchemaDrift.Proofs.Statement.HeadWords

namespace SchemaDrift.Statement

/-!
# Clauses in any order

The clauses of a field are looked for one by one, and each is cut off at the next word that starts a
clause. So they may come in any order, with any blanks between them, as long as no body has one of
these words standing alone.
-/

open Keyword Statement.Clauses

/-- The words of the clauses of a field that have a body. -/
def bodyWords : List Text := ["TYPE", "DEFAULT", "VALUE", "ASSERT", "REFERENCE", "COMMENT"]

/-- The words that no body of a field definition may have standing alone. -/
def reserved : List Text := "FLEXIBLE" :: fieldClauses

/-- What the definition of a field says behind its head. -/
structure FieldClauses where
  flexible : Bool := false
  /-- The body of the clause with a word, if there is such a clause. -/
  body : Text → Option Text := fun _ => none
  readonly : Bool := false
  /-- What stands behind the word of the permissions clause, if there is one. -/
  permissions : Option Text := none

namespace FieldClauses

variable {c : FieldClauses} {order front back : Clauses} {w k b x path table t statement : Text}

/-- The clauses that may come in any order. -/
def clauses (c : FieldClauses) : Clauses :=
  bodyWords.flatMap (fun w => optional w (c.body w)) ++ flag "READONLY" c.readonly

/-- The clause for the permissions, which comes last. -/
def last (c : FieldClauses) : Option Text := c.permissions.map ("PERMISSIONS" ++ ·)

/-- The parts of the definition behind the head. -/
def parts (c : FieldClauses) (order : Clauses) : List Text :=
  words (flag "FLEXIBLE" c.flexible) ++ (Clauses.parts order ++ c.last.toList)

/-- The field that the clauses describe. -/
def field (c : FieldClauses) (path : Text) : Field where
  name := path
  type := (c.body "TYPE").getD "any"
  flexible := c.flexible
  default := c.body "DEFAULT"
  value := c.body "VALUE"
  assertion := c.body "ASSERT"
  readonly := c.readonly
  permissions := (c.last.map Clause.permissions).getD .empty

/-- Whether the bodies are trimmed and do not end in a semicolon, and no text has a reserved word
standing alone. -/
structure IsClear (c : FieldClauses) : Prop where
  isBody : ∀ w ∈ bodyWords, ∀ b ∈ c.body w, Clause.IsBody b
  free : ∀ w ∈ bodyWords, ∀ b ∈ c.body w, ∀ k ∈ reserved, Free k b
  stands : ∀ p ∈ c.permissions, isEdge p.head? = true
  permissions : ∀ p ∈ c.permissions, ∀ k ∈ reserved, Free k p

instance (c : FieldClauses) : Decidable c.IsClear :=
  decidable_of_iff ((∀ w ∈ bodyWords, ∀ b ∈ c.body w, Clause.IsBody b ∧ ∀ k ∈ reserved, Free k b) ∧
      ∀ p ∈ c.permissions, isEdge p.head? = true ∧ ∀ k ∈ reserved, Free k p)
    ⟨fun ⟨hbody, hpermissions⟩ =>
      ⟨fun w hw b hb => (hbody w hw b hb).1, fun w hw b hb => (hbody w hw b hb).2,
        fun p hp => (hpermissions p hp).1, fun p hp => (hpermissions p hp).2⟩,
      fun h => ⟨fun w hw b hb => ⟨h.isBody w hw b hb, h.free w hw b hb⟩,
        fun p hp => ⟨h.stands p hp, h.permissions p hp⟩⟩⟩

/-- Whether the statement defines the field of a table with these clauses, in some order and some
spelling. -/
inductive Writes (path table : Text) (c : FieldClauses) : Text → Prop
  | statement {lead define t : Text} {head : List Text} {order : Clauses}
      (hlead : ∀ c ∈ lead, Text.isBlank c = true)
      (hhead : Head.IsFieldHead path table (define :: head)) (horder : order.Perm c.clauses)
      (ht : Renders (head ++ c.parts order) t) : Writes path table c (lead ++ (define ++ t))

/-! ## Words and bodies -/

theorem solid_reserved : ∀ k ∈ reserved, IsSolid k := by decide

theorem isReserved_of_bodyWords :
    ∀ w ∈ bodyWords, w ∈ reserved ∧ w ≠ "PERMISSIONS" ∧ w ≠ "FLEXIBLE" ∧ w ≠ "READONLY" := by
  decide

theorem words_optionals_sublist (ws : List Text) (body : Text → Option Text) :
    (words (ws.flatMap fun w => optional w (body w))).Sublist ws := by
  induction ws with
  | nil => exact List.Sublist.refl []
  | cons w ws ih =>
    rw [List.flatMap_cons, words_append]
    exact (words_optional_sublist w (body w)).append ih

theorem words_clauses_sublist (c : FieldClauses) :
    (words c.clauses).Sublist (bodyWords ++ [("READONLY" : Text)]) := by
  rw [clauses, words_append]
  exact (words_optionals_sublist bodyWords c.body).append (words_flag_sublist _ _)

theorem mem_words_clauses_iff : w ∈ words c.clauses ↔
    (w ∈ bodyWords ∧ (c.body w).isSome) ∨ (w = "READONLY" ∧ c.readonly = true) := by
  rw [clauses, words_append, List.mem_append, mem_words_flag]
  refine or_congr_left ?_
  simp only [words, List.map_flatMap, List.mem_flatMap]
  constructor
  · rintro ⟨k, hk, hw⟩
    obtain ⟨rfl, hsome⟩ := mem_words_optional.mp hw
    exact ⟨hk, hsome⟩
  · rintro ⟨hw, hsome⟩
    exact ⟨w, hw, mem_words_optional.mpr ⟨rfl, hsome⟩⟩

theorem mem_clauses_iff : (w, some b) ∈ c.clauses ↔ w ∈ bodyWords ∧ c.body w = some b := by
  rw [clauses, List.mem_append, List.mem_flatMap]
  constructor
  · rintro (⟨k, hk, hw⟩ | hw)
    · obtain ⟨b', hb, he⟩ := List.mem_map.mp hw
      cases he
      exact ⟨hk, Option.mem_toList.mp hb⟩
    · unfold flag at hw
      split at hw
      · cases List.mem_singleton.mp hw
      · cases hw
  · rintro ⟨hw, hb⟩
    exact .inl ⟨w, hw, List.mem_map.mpr ⟨b, Option.mem_toList.mpr hb, rfl⟩⟩

section Order

variable (horder : order.Perm c.clauses)
include horder

theorem mem_words_iff : w ∈ words order ↔
    (w ∈ bodyWords ∧ (c.body w).isSome) ∨ (w = "READONLY" ∧ c.readonly = true) :=
  (horder.map Prod.fst).mem_iff.trans mem_words_clauses_iff

theorem nodup_words : (words order).Nodup := by
  have distinct : (bodyWords ++ [("READONLY" : Text)]).Nodup := by decide
  exact (horder.map Prod.fst).nodup_iff.mpr (distinct.sublist c.words_clauses_sublist)

/-- Each word of a clause ends the clauses in front of it, and is none for the permissions. -/
theorem word_mem (hw : w ∈ words order) : w ∈ fieldClauses ∧ w ≠ "PERMISSIONS" := by
  have all : ∀ w ∈ bodyWords ++ [("READONLY" : Text)],
      w ∈ fieldClauses ∧ w ≠ "PERMISSIONS" := by decide
  exact all w (c.words_clauses_sublist.subset ((horder.map Prod.fst).mem_iff.mp hw))

theorem solid_word (hw : w ∈ words order) : IsSolid w :=
  solid_reserved w (List.mem_cons_of_mem _ (word_mem horder hw).1)

theorem body_of_mem (h : (w, some b) ∈ order) : w ∈ bodyWords ∧ c.body w = some b :=
  mem_clauses_iff.mp (horder.mem_iff.mp h)

variable (hc : c.IsClear)
include hc

theorem free_bodies (hk : k ∈ reserved) : ∀ d ∈ order, ∀ b ∈ d.2, Free k b := by
  rintro ⟨w, _⟩ hm b ⟨⟩
  obtain ⟨hw, hb⟩ := body_of_mem horder hm
  exact hc.free w hw b hb k hk

/-- A reserved word stands in no part but itself. -/
theorem free_clauses (hk : k ∈ reserved) {p : Text} (hp : p ∈ Clauses.parts order) (hne : p ≠ k) :
    Free k p :=
  free_of_mem_parts (fun _ hw => solid_word horder hw) (free_bodies horder hc hk) p hp hne

omit horder in
theorem free_last (hk : k ∈ reserved) (hne : k ≠ "PERMISSIONS") {p : Text} (hp : p ∈ c.last) :
    Free k p := by
  obtain ⟨x, hx, rfl⟩ := Option.map_eq_some_iff.mp hp
  have word : Free k "PERMISSIONS" := free_of_ne (solid_reserved _ (by decide)) (Ne.symm hne)
  rw [free_iff, cut?_append (solid_reserved k hk) (free_iff.mp word) (hc.stands x hx),
    free_iff.mp (hc.permissions x hx k hk)]
  rfl

theorem free_parts (hk : k ∈ reserved) (hkp : k ≠ "PERMISSIONS") {p : Text} (hp : p ∈ c.parts order)
    (hne : p ≠ k) : Free k p := by
  rcases List.mem_append.mp hp with hp | hp
  · rw [(mem_words_flag.mp hp).1] at hne ⊢
    exact free_of_ne (solid_reserved _ (by decide)) hne
  · rcases List.mem_append.mp hp with hp | hp
    · exact free_clauses horder hc hk hp hne
    · exact free_last hc hk hkp (Option.mem_toList.mp hp)

/-- A reserved word is a part just if it is the word of a clause. -/
theorem mem_parts_iff (hk : k ∈ reserved) (hkp : k ≠ "PERMISSIONS") :
    k ∈ c.parts order ↔ (k = "FLEXIBLE" ∧ c.flexible = true) ∨ k ∈ words order := by
  rw [parts, List.mem_append, mem_words_flag, List.mem_append]
  have solid := solid_reserved k hk
  have absent : k ∉ c.last.toList := fun hp =>
    not_free_self solid (free_last hc hk hkp (Option.mem_toList.mp hp))
  rw [or_iff_left absent, Clauses.mem_parts_iff solid (free_bodies horder hc hk)]

/-- The word of the permissions stands in nothing but the clause for them. -/
theorem free_permissions :
    ∀ p ∈ words (flag "FLEXIBLE" c.flexible) ++ Clauses.parts order, Free "PERMISSIONS" p := by
  intro p hp
  rcases List.mem_append.mp hp with hp | hp
  · rw [(mem_words_flag.mp hp).1]
    exact free_of_ne (solid_reserved _ (by decide)) (by decide)
  · have hk : ("PERMISSIONS" : Text) ∈ reserved := by decide
    refine free_clauses horder hc hk hp ?_
    rintro rfl
    have hw := (Clauses.mem_parts_iff (solid_reserved _ hk) (free_bodies horder hc hk)).mp hp
    exact (word_mem horder hw).2 rfl

variable (ht : Renders (c.parts order) t)
include ht

/-! ## Flags -/

theorem occurs_eq (hk : k ∈ reserved) (hkp : k ≠ "PERMISSIONS") :
    occurs k t = decide ((k = "FLEXIBLE" ∧ c.flexible = true) ∨ k ∈ words order) := by
  rw [ht.occurs_eq (solid_reserved k hk) fun p hp hne => free_parts horder hc hk hkp hp hne]
  exact decide_eq_decide.mpr (mem_parts_iff horder hc hk hkp)

theorem flexible_eq : occurs "FLEXIBLE" t = c.flexible := by
  have other : ("FLEXIBLE" : Text) ∉ words order := fun hw =>
    absurd (word_mem horder hw).1 (by decide)
  rw [occurs_eq horder hc ht (by decide) (by decide), Bool.eq_iff_iff, decide_eq_true_iff]
  exact ⟨fun h => (h.resolve_right other).2, fun h => .inl ⟨rfl, h⟩⟩

theorem readonly_eq : occurs "READONLY" t = c.readonly := by
  have bodiless : ("READONLY" : Text) ∉ bodyWords := by decide
  rw [occurs_eq horder hc ht (by decide) (by decide), Bool.eq_iff_iff, decide_eq_true_iff,
    mem_words_iff horder]
  constructor
  · rintro (⟨hother, -⟩ | ⟨hword, -⟩ | ⟨-, h⟩)
    · exact absurd hother (by decide)
    · exact absurd hword bodiless
    · exact h
  · exact fun h => .inr (.inr ⟨rfl, h⟩)

/-! ## Bodies -/

omit horder ht in
/-- Behind a body stands a word that ends it, or nothing. -/
theorem isBlank_of_upTo (hback : Renders (Clauses.parts back ++ c.last.toList) t)
    (hwords : ∀ v ∈ words back, v ∈ fieldClauses ∧ v ≠ w) (hw : w ≠ "PERMISSIONS") :
    ∀ d ∈ upTo (fieldClauses.filter (· != w)) none t, Text.isBlank d = true := by
  have solid : ∀ v ∈ fieldClauses.filter (· != w), IsSolid v := fun v hv =>
    solid_reserved v (List.mem_cons_of_mem _ (List.mem_filter.mp hv).1)
  have ends {v : Text} (hv : v ∈ fieldClauses) (hne : v ≠ w) : v ∈ fieldClauses.filter (· != w) :=
    List.mem_filter.mpr ⟨hv, by simpa using hne⟩
  cases back with
  | cons d back =>
    obtain ⟨g, rest, rfl, hg, hrest⟩ := hback.of_cons
    obtain ⟨hv, hne⟩ := hwords d.1 List.mem_cons_self
    rw [upTo_keyword solid (ends hv hne) hg hrest.isEdge_head]
    exact hg.2
  | nil =>
    cases hl : c.last with
    | none =>
      rw [hl] at hback
      cases hback
      simp [upTo]
    | some p =>
      rw [hl] at hback
      obtain ⟨x, hx, rfl⟩ := Option.map_eq_some_iff.mp hl
      obtain ⟨g, rest, rfl, hg, hrest⟩ := hback.of_cons
      cases hrest
      rw [List.append_nil, upTo_keyword solid (ends (by decide) (Ne.symm hw)) hg (hc.stands x hx)]
      exact hg.2

omit hc ht in
/-- Behind a clause stand other clauses, whose words end it. -/
theorem ends_of_split (hsplit : order = front ++ (w, some b) :: back) :
    ∀ v ∈ words back, v ∈ fieldClauses ∧ v ≠ w := by
  intro v hv
  have distinct := nodup_words horder
  have hmem : v ∈ words order := by simp [hsplit, hv]
  rw [hsplit, words_append, words_cons, List.nodup_append] at distinct
  refine ⟨(word_mem horder hmem).1, ?_⟩
  rintro rfl
  exact (List.nodup_cons.mp distinct.2.1).1 hv

omit ht in
/-- In front of a clause its word stands nowhere. -/
theorem free_of_split (hsplit : order = front ++ (w, some b) :: back) (hw : w ∈ bodyWords) :
    ∀ p ∈ words (flag "FLEXIBLE" c.flexible) ++ Clauses.parts front, Free w p := by
  intro p hp
  obtain ⟨hk, hpermissions, hflexible, -⟩ := isReserved_of_bodyWords w hw
  have distinct := nodup_words horder
  rw [hsplit, words_append, words_cons, List.nodup_append] at distinct
  have part : p ∈ c.parts order := by
    rw [hsplit, parts, parts_append, List.append_assoc, ← List.append_assoc]
    exact List.mem_append_left _ hp
  refine free_parts horder hc hk hpermissions part ?_
  rintro rfl
  rcases List.mem_append.mp hp with hp | hp
  · exact hflexible (mem_words_flag.mp hp).1
  · have bodies := fun d hd => free_bodies horder hc hk d (hsplit ▸ List.mem_append_left _ hd)
    have hfront := (Clauses.mem_parts_iff (solid_reserved p hk) bodies).mp hp
    exact distinct.2.2 p hfront p List.mem_cons_self rfl

theorem body?_of_none (hw : w ∈ bodyWords) (hb : c.body w = none) :
    Clause.body? w fieldClauses t = none := by
  obtain ⟨hk, hpermissions, hflexible, hreadonly⟩ := isReserved_of_bodyWords w hw
  have absent : w ∉ c.parts order := by
    rw [mem_parts_iff horder hc hk hpermissions, mem_words_iff horder, hb]
    rintro (⟨he, -⟩ | ⟨-, hsome⟩ | ⟨he, -⟩)
    · exact hflexible he
    · cases hsome
    · exact hreadonly he
  exact ht.body?_eq_none (solid_reserved w hk) fun p hp =>
    free_parts horder hc hk hpermissions hp fun he => absent (he ▸ hp)

theorem body?_of_some (hw : w ∈ bodyWords) (hb : c.body w = some b) :
    Clause.body? w fieldClauses t = some b := by
  obtain ⟨hk, hpermissions, -, -⟩ := isReserved_of_bodyWords w hw
  have hm : (w, some b) ∈ order := horder.mem_iff.mpr (mem_clauses_iff.mpr ⟨hw, hb⟩)
  obtain ⟨front, back, hsplit⟩ := List.append_of_mem hm
  have regroup : c.parts order = (words (flag "FLEXIBLE" c.flexible) ++ Clauses.parts front) ++
      w :: b :: (Clauses.parts back ++ c.last.toList) := by simp [parts, hsplit]
  rw [regroup] at ht
  obtain ⟨a, t', rfl, ha, ht'⟩ := ht.of_append
  obtain ⟨g, t₁, rfl, hg, ht₁⟩ := ht'.of_cons
  obtain ⟨gap, rest, rfl, hgap, hrest⟩ := ht₁.of_cons
  exact ha.body?_eq_some (solid_reserved w hk)
    (fun k hk => solid_reserved k (List.mem_cons_of_mem _ hk)) (free_of_split horder hc hsplit hw)
    hg hgap (hc.isBody w hw b hb) (fun k hk => hc.free w hw b hb k (List.mem_cons_of_mem _ hk))
    hrest.isEdge_head (isBlank_of_upTo hc hrest (ends_of_split horder hsplit) hpermissions)

theorem body?_eq (hw : w ∈ bodyWords) : Clause.body? w fieldClauses t = c.body w := by
  cases hb : c.body w with
  | none => exact body?_of_none horder hc ht hw hb
  | some b => exact body?_of_some horder hc ht hw hb

/-! ## Permissions -/

theorem permissions_eq : Clause.permissions t = (c.last.map Clause.permissions).getD .empty := by
  have solid : IsSolid "PERMISSIONS" := solid_reserved _ (by decide)
  have free := free_permissions horder hc
  rw [parts, ← List.append_assoc] at ht
  obtain ⟨a, b, rfl, ha, hb⟩ := ht.of_append
  cases hl : c.last with
  | none =>
    rw [hl] at hb
    cases hb
    rw [List.append_nil, Clause.permissions, ha.cut?_eq_none solid free]
    rfl
  | some p =>
    obtain ⟨x, hx, rfl⟩ := Option.map_eq_some_iff.mp hl
    rw [hl] at hb
    obtain ⟨g, rest, rfl, hg, hrest⟩ := hb.of_cons
    cases hrest
    have edge := hc.stands x hx
    rw [List.append_nil, Option.map_some, Option.getD_some, Clause.permissions, Clause.permissions,
      ha.cut?_eq solid free hg edge, cut?_self solid rfl edge]

end Order

/-- In whatever order the clauses of a field are written, the field that they describe is read. -/
theorem readField_of_writes (hpath : IsPath path)
    (hover : Text.sameLetters path "overwrite" = false) (htable : IsName table)
    (hname : Text.sameLetters table "table" = false) (hc : c.IsClear)
    (h : Writes path table c statement) : readField statement = .ok (c.field path) := by
  obtain ⟨hlead, hhead, horder, ht⟩ := h
  obtain ⟨rest, hread, hrest⟩ :=
    Head.field?_renders hhead hpath hover htable hname hlead ht
  have body (w : Text) (hw : w ∈ bodyWords) : Clause.body? w fieldClauses rest = c.body w :=
    body?_eq horder hc hrest hw
  rw [readField, hread]
  simp only [expect, Except.map, Statement.field, field, body "TYPE" (by decide),
    body "DEFAULT" (by decide), body "VALUE" (by decide), body "ASSERT" (by decide),
    flexible_eq horder hc hrest, readonly_eq horder hc hrest, permissions_eq horder hc hrest]

/-- The clauses of the tags of a post. -/
def tags : FieldClauses where
  flexible := true
  body := fun w => if w = "TYPE" then some "int" else if w = "VALUE" then some "$in" else none
  readonly := true
  permissions := some " NONE"

/-- The definition of the tags, with the type behind other clauses. -/
def tagsStatement : Text :=
  "define field OverWrite tags.*\non \x60post\x60 FLEXIBLE VALUE $in\tREADONLY TYPE int " ++
    "PERMISSIONS NONE"

theorem writes_tags : Writes "tags.*" "post" tags tagsStatement := by
  have head : Head.IsFieldHead "tags.*" "post"
      ["define", "field", "OverWrite", "tags.*", "on", "\x60post\x60"] :=
    @Head.IsFieldHead.words _ _ "define" "field" "\x60post\x60" ["OverWrite"] ["on"] (by decide)
      (by decide) (.overwrite (by decide)) (.on (by decide)) .quoted
  have spaced : ∀ x ∈ ([(" ", "field"), (" ", "OverWrite"), (" ", "tags.*"), ("\n", "on"),
      (" ", "\x60post\x60"), (" ", "FLEXIBLE"), (" ", "VALUE"), (" ", "$in"), ("\t", "READONLY"),
      (" ", "TYPE"), (" ", "int"), (" ", "PERMISSIONS NONE")] : List (Text × Text)),
      IsSpace x.1 := by decide
  exact @Writes.statement "tags.*" "post" tags [] _ _ _
    [("VALUE", some "$in"), ("READONLY", none), ("TYPE", some "int")] (by decide) head (by decide)
    (Renders.of_pairs spaced)

theorem readField_tags : readField tagsStatement = .ok (tags.field "tags.*") :=
  readField_of_writes ⟨"tags", [".*"], by decide, by simp [IsStep.star], rfl⟩ (by decide)
    (by decide) (by decide) (by decide) writes_tags

end FieldClauses

end SchemaDrift.Statement
