import SchemaDrift.Proofs.Code.Search
import SchemaDrift.Proofs.Source.Emitted

namespace SchemaDrift.Source

open Code

/-!
# Pieces of builder expressions

The expression that is written for a declaration is cut in the same way wherever it stands, and all
its brackets are closed. It is no place for a search: no head of a function and no list of fields
starts in its code.
-/

/-- Whether the text is code without quotes and slashes that is cut in the same way wherever it
stands, and in which none of the words of a search starts. -/
def IsRun (t : Text) : Prop :=
  (∀ c ∈ t, c ∉ ['/', '\'', '"', '#']) ∧ (∀ c ∈ t.getLast?, c ≠ 'r' ∧ c ≠ 'b') ∧
    ∀ word ∈ words, avoids word t = true

instance (t : Text) : Decidable (IsRun t) :=
  inferInstanceAs (Decidable ((∀ c ∈ t, c ∉ ['/', '\'', '"', '#']) ∧
    (∀ c ∈ t.getLast?, c ≠ 'r' ∧ c ≠ 'b') ∧ ∀ word ∈ words, avoids word t = true))

/-- Whether the text is cut in the same way wherever it stands, all its brackets are closed, and
none of the words of a search starts in its code. -/
def IsExpr (e : Text) : Prop :=
  ∃ ps, Cuts ps ∧ textOf ps = e ∧ IsPaired ps ∧ .plain '\'' ∉ ps ∧ Mute ps

variable {a b e t indent : Text} {d : Declaration}

theorem IsExpr.append (ha : IsExpr a) (hb : IsExpr b) : IsExpr (a ++ b) := by
  obtain ⟨ps, hp, rfl, hps, hps', hpm⟩ := ha
  obtain ⟨qs, hq, rfl, hqs, hqs', hqm⟩ := hb
  exact ⟨ps ++ qs, hp.append hq, textOf_append ps qs, hps.append hqs, by simp [hps', hqs'],
    hpm.append hqm⟩

theorem isExpr_quote (t : Text) : IsExpr (Text.quote t) :=
  ⟨[.literal '"' (Text.quote t)], cuts_quote t, by simp [Piece.text], rfl, by simp, mute_quote t⟩

theorem IsRun.not_quote (h : IsRun t) : .plain '\'' ∉ plains t := fun hm => by
  obtain ⟨c, hc, he⟩ := List.mem_map.mp hm
  exact h.1 c hc (by simp [Piece.plain.inj he])

theorem IsRun.cuts (h : IsRun t) : Cuts (plains t) := cuts_plains h.1 h.2.1

theorem IsRun.mute (h : IsRun t) : Mute (plains t) := mute_plains h.2.2

theorem isExpr_run (h : IsRun t) (hl : level 0 t = some 0) : IsExpr t :=
  ⟨plains t, h.cuts, textOf_plains t, by rwa [IsPaired, marks_plains], h.not_quote, h.mute⟩

/-- An expression between brackets. -/
theorem IsExpr.within (h : IsExpr e) (ha : IsRun a) (hb : IsRun b)
    (hl : ((level 0 a).bind fun depth => level depth b) = some 0) : IsExpr (a ++ e ++ b) := by
  obtain ⟨ps, hp, rfl, hps, hps', hpm⟩ := h
  obtain ⟨depth, hopen, hclose⟩ := Option.bind_eq_some_iff.mp hl
  refine ⟨plains a ++ ps ++ plains b, (ha.cuts.append hp).append hb.cuts, by simp, ?_,
    by simp [hps', ha.not_quote, hb.not_quote], (ha.mute.append hpm).append hb.mute⟩
  have inner : level depth (marks ps) = some depth := by simpa using level_add hps depth
  simp only [IsPaired, marks_append, marks_plains, level_append, hopen, Option.bind_some, inner,
    hclose]

theorem isRun_blanks (h : ∀ c ∈ t, Text.isBlank c = true) : IsRun t := by
  have other : ∀ c ∈ ['/', '\'', '"', '#', 'r', 'b', 'p', 'f', '.'], Text.isBlank c = false := by
    decide
  have ne (c : Char) (hc : c ∈ t) (d : Char)
      (hd : d ∈ ['/', '\'', '"', '#', 'r', 'b', 'p', 'f', '.']) : c ≠ d := by
    rintro rfl
    have := h c hc
    rw [other c hd] at this
    cases this
  refine ⟨fun c hc hm => ne c hc c (by simp at hm ⊢; tauto) rfl, fun c hc => ⟨?_, ?_⟩,
    avoids_of_forall fun c hc hm => ne c hc c (by simp at hm ⊢; tauto) rfl⟩
  · exact ne c (List.mem_of_getLast? hc) 'r' (by decide)
  · exact ne c (List.mem_of_getLast? hc) 'b' (by decide)

theorem level_of_not_bracket (h : ∀ c ∈ t, opens c = false ∧ closes c = false) (depth : Nat) :
    level depth t = some depth := by
  induction t with
  | nil => rfl
  | cons c t ih =>
    obtain ⟨⟨hopen, hclose⟩, ht⟩ := List.forall_mem_cons.mp h
    simp only [level, hopen, hclose, Bool.false_eq_true, if_false]
    exact ih ht

theorem isExpr_blanks (h : ∀ c ∈ t, Text.isBlank c = true) : IsExpr t :=
  isExpr_run (isRun_blanks h) (level_of_not_bracket (fun c hc => not_bracket_of_isBlank (h c hc)) 0)

theorem isExpr_nil : IsExpr [] := ⟨[], cuts_nil, rfl, rfl, by simp, mute_nil⟩

/-- Expressions with a separator between neighbours. -/
theorem isExpr_join {sep : Text} (hs : IsRun sep) (hl : level 0 sep = some 0) {es : List Text}
    (h : ∀ e ∈ es, IsExpr e) : IsExpr (Text.join sep es) := by
  induction es with
  | nil => exact isExpr_nil
  | cons e es ih =>
    obtain ⟨he, hes⟩ := List.forall_mem_cons.mp h
    cases es with
    | nil => simpa using he
    | cons f es =>
      rw [Text.join_cons_cons]
      exact he.append ((isExpr_run hs hl).append (ih hes))

theorem isExpr_digits (n : Nat) : IsExpr (Text.ofNat n) := by
  have digit (c : Char) (hc : c ∈ Text.ofNat n) : c.isDigit = true :=
    Nat.isDigit_of_mem_toDigits (by decide) (by decide) hc
  have ne {c d : Char} (hc : c ∈ Text.ofNat n) (hd : d.isDigit = false) : c ≠ d := by
    rintro rfl
    rw [digit c hc] at hd
    cases hd
  refine isExpr_run ⟨fun c hc hm => ?_, fun c hc => ?_, avoids_of_forall fun c hc hm => ?_⟩
    (level_of_not_bracket (fun c hc => ⟨?_, ?_⟩) 0)
  · have other : ∀ d ∈ ['/', '\'', '"', '#'], d.isDigit = false := by decide
    exact ne hc (other c hm) rfl
  · exact ⟨ne (List.mem_of_getLast? hc) (by decide), ne (List.mem_of_getLast? hc) (by decide)⟩
  · have other : ∀ d ∈ ['p', 'f', '.'], d.isDigit = false := by decide
    exact ne hc (other c hm) rfl
  · have paren : c ≠ '(' := ne hc (by decide)
    have square : c ≠ '[' := ne hc (by decide)
    have curly : c ≠ '\x7b' := ne hc (by decide)
    simp [opens, paren, square, curly]
  · have paren : c ≠ ')' := ne hc (by decide)
    have square : c ≠ ']' := ne hc (by decide)
    have curly : c ≠ '\x7d' := ne hc (by decide)
    simp [closes, paren, square, curly]

/-! ## Builders -/

theorem isExpr_bareCall {name : Text} (hn : IsRun ("." ++ name ++ "()"))
    (hl : level 0 ("." ++ name ++ "()" : Text) = some 0) (present : Bool) :
    IsExpr (bareCall name present) := by
  cases present with
  | true => exact isExpr_run hn hl
  | false => exact isExpr_nil

theorem isExpr_quotedCall {name : Text} (hn : IsRun ("." ++ name ++ "("))
    (hl : level 0 ("." ++ name ++ "(" : Text) = some 1) (arg : Option Text) :
    IsExpr (quotedCall name arg) := by
  cases arg with
  | some arg => exact (isExpr_quote arg).within hn (by decide) (by rw [hl]; rfl)
  | none => exact isExpr_nil

theorem isExpr_grantCall (op : Operation) (expr : Text) : IsExpr (grantCall op expr) := by
  have form : grantCall op expr = ".with(PermissionKind::" ++ operationName op ++ ", " ++
      Text.quote expr ++ ")" := rfl
  rw [form]
  cases op
  all_goals exact (isExpr_quote expr).within (by decide) (by decide) (by decide)

theorem isExpr_grants (grants : List (Operation × Text)) :
    IsExpr (grants.flatMap fun g => grantCall g.1 g.2) := by
  induction grants with
  | nil => exact isExpr_nil
  | cons g grants ih => exact (isExpr_grantCall g.1 g.2).append ih

theorem isExpr_permissionsCall (p : Permissions) : IsExpr (permissionsCall p) := by
  have call {expr : Text} (he : IsExpr expr) : IsExpr (".permissions(" ++ expr ++ ")") :=
    he.within (by decide) (by decide) (by decide)
  unfold permissionsCall permissions?
  split
  · exact isExpr_nil
  · rename_i expr hexpr
    split at hexpr
    · cases hexpr
    · rw [← Option.some.inj hexpr]
      refine call ?_
      split
      · rename_i granted _
        split
        · exact isExpr_run (by decide) (by decide)
        · split
          · exact isExpr_run (by decide) (by decide)
          · exact (isExpr_quote granted).within (by decide) (by decide) (by decide)
      · exact (isExpr_run (by decide) (by decide)).append (isExpr_grants p.granted)

theorem isExpr_clauses (c : Clauses) : IsExpr (clauses c) := by
  unfold clauses
  exact (((((isExpr_bareCall (by decide) (by decide) c.flexible).append
    (isExpr_quotedCall (by decide) (by decide) c.value)).append
    (isExpr_quotedCall (by decide) (by decide) c.assertion)).append
    (isExpr_quotedCall (by decide) (by decide) c.default)).append
    (isExpr_bareCall (by decide) (by decide) c.readonly)).append
    (isExpr_permissionsCall c.permissions)

/-- The fields of an object stand on lines of their own. -/
theorem isExpr_entryLines {fields : List (Text × Declaration)}
    (hi : ∀ c ∈ indent, Text.isBlank c = true)
    (h : ∀ f ∈ fields, IsExpr (builder indent f.2)) : IsExpr (entryLines indent fields) := by
  induction fields with
  | nil => exact isExpr_nil
  | cons f fields ih =>
    obtain ⟨hf, hfields⟩ := List.forall_mem_cons.mp h
    have line : IsExpr ("(" ++ (Text.quote f.1 ++ (", " ++ builder indent f.2)) ++ "),\n") :=
      ((isExpr_quote f.1).append ((isExpr_run (by decide) (by decide)).append hf)).within
        (by decide) (by decide) (by decide)
    have form : entryLines indent (f :: fields) = indent ++
        (("(" ++ (Text.quote f.1 ++ (", " ++ builder indent f.2)) ++ "),\n") ++
          entryLines indent fields) := by
      simp [entryLines]
    rw [form]
    exact (isExpr_blanks hi).append (line.append (ih hfields))

theorem isExpr_record (tables : List Text) :
    IsExpr ("Field::record([" ++ Text.join ", " (tables.map Text.quote) ++ "])") := by
  have names : IsExpr (Text.join ", " (tables.map Text.quote)) :=
    isExpr_join (by decide) (by decide) fun e he => by
      obtain ⟨t, -, rfl⟩ := List.mem_map.mp he
      exact isExpr_quote t
  exact names.within (by decide) (by decide) (by decide)

theorem IsExpr.container {e : Text} (h : IsExpr e) (kind : Container) (max : Option Nat) :
    IsExpr (container kind e max) := by
  cases max with
  | none =>
    have call : IsExpr ("Field::" ++ kind.keyword ++ "(" ++ e ++ ")") := by
      cases kind
      all_goals exact h.within (by decide) (by decide) (by decide)
    exact call
  | some max =>
    have args : IsExpr (e ++ ", " ++ Text.ofNat max) :=
      (h.append (isExpr_run (by decide) (by decide))).append (isExpr_digits max)
    have form : Source.container kind e (some max) =
        "Field::" ++ kind.keyword ++ "_max(" ++ (e ++ ", " ++ Text.ofNat max) ++ ")" := by
      unfold Source.container
      simp only [List.append_assoc]
    rw [form]
    cases kind
    all_goals exact args.within (by decide) (by decide) (by decide)

theorem isExpr_object {fields : List (Text × Declaration)}
    (h : ∀ f ∈ fields, ∀ indent : Text, (∀ c ∈ indent, Text.isBlank c = true) →
      IsExpr (builder indent f.2)) (hi : ∀ c ∈ indent, Text.isBlank c = true) :
    IsExpr (shapeBuilder indent (.object fields)) := by
  cases fields with
  | nil =>
    have empty : IsExpr "Field::object(vec![])" := isExpr_run (by decide) (by decide)
    exact empty
  | cons f fields =>
    have deeper : ∀ c ∈ indent ++ "    ", Text.isBlank c = true := fun c hc =>
      (List.mem_append.mp hc).elim (hi c)
        ((by decide : ∀ c ∈ ("    " : Text), Text.isBlank c = true) c)
    have lines : IsExpr (entryLines (indent ++ "    ") (f :: fields) ++ indent) :=
      (isExpr_entryLines deeper fun g hg => h g hg _ deeper).append (isExpr_blanks hi)
    have form : shapeBuilder indent (.object (f :: fields)) = "Field::object(vec![\n" ++
        (entryLines (indent ++ "    ") (f :: fields) ++ indent) ++ "])" := by
      unfold shapeBuilder
      simp only [List.append_assoc]
    rw [form]
    exact lines.within (by decide) (by decide) (by decide)

theorem isExpr_custom (type : Text) : IsExpr (custom type) := by
  unfold custom
  split
  · exact (isExpr_quote _).within (by decide) (by decide) (by decide)
  · exact (isExpr_quote _).within (by decide) (by decide) (by decide)

theorem isExpr_builder (h : d.Written) (hi : ∀ c ∈ indent, Text.isBlank c = true) :
    IsExpr (builder indent d) := by
  have build {shape : Shape Declaration} {indent : Text} (c : Clauses)
      (hs : IsExpr (shapeBuilder indent shape)) : IsExpr (builder indent (.of shape c)) :=
    hs.append (isExpr_clauses c)
  induction h generalizing indent with
  | @scalar type ht c =>
    have calls : ∀ type ∈ Declaration.scalars, IsRun ("Field::" ++ type ++ "()" : Text) ∧
        level 0 ("Field::" ++ type ++ "()" : Text) = some 0 := by decide
    exact build c (isExpr_run (calls type ht).1 (calls type ht).2)
  | record tables c => exact build c (isExpr_record tables)
  | @option inner _ c ih =>
    have call : IsExpr ("Field::option(" ++ builder indent inner ++ ")") :=
      (ih hi).within (by decide) (by decide) (by decide)
    exact build c call
  | container kind _ max _ c ih => exact build c ((ih hi).container kind max)
  | object _ c ih => exact build c (isExpr_object (fun f hf _ hi => ih f hf hi) hi)
  | custom type c => exact build c (isExpr_custom type)

/-- The entry of a field is a group in parentheses behind its indentation. -/
theorem exists_group_entry (h : d.Written) (hi : ∀ c ∈ indent, Text.isBlank c = true)
    (name : Text) :
    ∃ inner, entry indent name d = indent ++ (Part.group inner).text ∧
      Cuts (Part.group inner).pieces ∧ IsPaired inner ∧ .plain '\'' ∉ inner ∧ Mute inner := by
  obtain ⟨ps, hp, htext, hclosed, hquote, hmute⟩ := (isExpr_quote name).append
    ((isExpr_run (by decide) (by decide) : IsExpr ", ").append (isExpr_builder h hi))
  refine ⟨ps, ?_, ?_, hclosed, hquote, hmute⟩
  · rw [Part.text, Part.pieces, textOf_cons, textOf_append, htext]
    simp [entry, Piece.text]
  · have opening : IsRun "(" := by decide
    have closing : IsRun ")" := by decide
    exact opening.cuts.append (hp.append closing.cuts)

end SchemaDrift.Source
