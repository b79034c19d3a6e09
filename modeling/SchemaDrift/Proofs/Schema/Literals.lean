import SchemaDrift.Proofs.Model.Enclosed
import SchemaDrift.Proofs.Schema.Filled
import SchemaDrift.Proofs.Schema.Options

namespace SchemaDrift.TypeExpr

/-!
# Literals in types

The normal form knows nothing of quotes. A literal whose content closes its brackets and hides its
separators in them is kept all the same, but for the blanks in it: it is lost just if it has some,
to the comparison of types and to the declarations in the code.
-/

variable {s t name : Text} {u : Term} {ts : List Term} {args : List (List Term)} {cs : List Text}

/-- Whether the text closes the brackets that it opens, and has its separators inside of them. -/
structure IsClosed (t : Text) : Prop where
  balanced : Balanced 0 t
  comma : Whole ',' t
  bar : Whole '|' t

instance (t : Text) : Decidable (IsClosed t) :=
  decidable_of_iff (Balanced 0 t ∧ Whole ',' t ∧ Whole '|' t)
    ⟨fun ⟨hb, hc, hp⟩ => ⟨hb, hc, hp⟩, fun ⟨hb, hc, hp⟩ => ⟨hb, hc, hp⟩⟩

/-! ## Brackets and separators around literals -/

theorem bracket_of_isQuote {q : Char} (h : isQuote q = true) : bracket q = 0 := by
  rcases Bool.or_eq_true_iff.mp h with h | h
  · rw [eq_of_beq h]
    rfl
  · rw [eq_of_beq h]
    rfl

theorem balanced_quote_cons {q : Char} (hq : isQuote q = true) {d : Int} :
    Balanced d (q :: t) ↔ 0 ≤ d ∧ Balanced d t := by
  rw [Balanced, bracket_of_isQuote hq, Int.add_zero]

theorem Fills.balanced (h : Fills t cs s) (hcs : ∀ c ∈ cs, IsClosed c) {d : Int}
    (hb : Balanced d t) : Balanced d s := by
  induction h generalizing d with
  | nil => exact hb
  | plain _ _ ih => exact ⟨hb.1, ih hcs hb.2⟩
  | @literal t s cs q hq content _ ih =>
    obtain ⟨hd, hb⟩ := (balanced_quote_cons hq).mp ((balanced_quote_cons hq).mp hb).2
    have rest := (balanced_quote_cons hq).mpr
      ⟨hd, ih (fun c hc => hcs c (List.mem_cons_of_mem _ hc)) hb⟩
    have inner := (hcs content List.mem_cons_self).balanced.append rest hd
    rw [Int.zero_add] at inner
    exact (balanced_quote_cons hq).mpr ⟨hd, inner⟩

theorem Fills.splitFrom_eq (h : Fills t cs s) (hcs : ∀ c ∈ cs, IsClosed c) {sep : Char}
    (hsep : sep = ',' ∨ sep = '|') {d : Int} (hb : Balanced d t) (hw : splitFrom sep d t = [t]) :
    splitFrom sep d s = [s] := by
  induction h generalizing d with
  | nil => exact hw
  | plain _ _ ih =>
    obtain ⟨hne, hw⟩ := splitFrom_tail hw
    rw [splitFrom, if_neg hne, ih hcs hb.2 hw]
    rfl
  | @literal t s cs q hq content _ ih =>
    have quote := bracket_of_isQuote hq
    obtain ⟨hd, hb⟩ := (balanced_quote_cons hq).mp ((balanced_quote_cons hq).mp hb).2
    obtain ⟨hne, hw⟩ := splitFrom_tail hw
    obtain ⟨-, hw⟩ := splitFrom_tail hw
    rw [quote, Int.add_zero, Int.add_zero] at hw
    have closed := hcs content List.mem_cons_self
    have rest := ih (fun c hc => hcs c (List.mem_cons_of_mem _ hc)) hb hw
    have hidden : splitFrom sep (0 + d) content = [content] := by
      rcases Int.lt_or_eq_of_le hd with hpos | rfl
      · exact splitFrom_of_balanced hpos closed.balanced (Int.le_refl 0)
      · rcases hsep with rfl | rfl
        · exact closed.comma
        · exact closed.bar
    have skip := splitFrom_append closed.balanced hidden (q :: s)
    rw [Int.zero_add] at skip
    rw [splitFrom, if_neg hne, quote, Int.add_zero, skip, splitFrom, if_neg hne, quote,
      Int.add_zero, rest]
    simp [Text.consHead]

theorem Fills.whole (h : Fills t cs s) (hcs : ∀ c ∈ cs, IsClosed c) {sep : Char}
    (hsep : sep = ',' ∨ sep = '|') (hb : Balanced 0 t) (hw : Whole sep t) : Whole sep s :=
  h.splitFrom_eq hcs hsep hb hw

/-! ## Joining what is filled -/

section Join

variable {ms : List Text} {fs : List (List Text × Text)}

/-- The parts of a filled text, each with its contents. -/
abbrev FillsAll (ms : List Text) (fs : List (List Text × Text)) : Prop :=
  List.Forall₂ (fun m f => Fills m f.1 f.2) ms fs

theorem FillsAll.mem_iff (h : FillsAll ms fs) {k : Text} (hk : ∀ c ∈ k, isQuote c = false) :
    k ∈ fs.map Prod.snd ↔ k ∈ ms := by
  induction h with
  | nil => rfl
  | cons hm _ ih => simp [ih, eq_comm (a := k), hm.eq_iff hk]

theorem FillsAll.eq_singleton_iff (h : FillsAll ms fs) {k : Text}
    (hk : ∀ c ∈ k, isQuote c = false) : fs.map Prod.snd = [k] ↔ ms = [k] := by
  cases h with
  | nil => simp
  | cons hm hrest =>
    cases hrest with
    | nil => simp [hm.eq_iff hk]
    | cons _ _ => simp

/-- Where a text without quotes is left out, nothing that is filled in gets lost. -/
theorem FillsAll.filter (h : FillsAll ms fs) {k : Text} (hk : ∀ c ∈ k, isQuote c = false) :
    FillsAll (ms.filter (· != k)) (fs.filter (·.2 != k)) ∧
      ((fs.filter (·.2 != k)).map Prod.fst).flatten = (fs.map Prod.fst).flatten := by
  induction h with
  | nil => exact ⟨.nil, rfl⟩
  | @cons m f ms fs hm _ ih =>
    by_cases hf : f.2 = k
    · have hmk : m = k := (hm.eq_iff hk).mp hf
      have nothing : f.1 = [] := (hm.eq_of_filled_unquoted (hf ▸ hk)).1
      rw [List.filter_cons_of_neg (by simp [hmk]), List.filter_cons_of_neg (by simp [hf])]
      exact ⟨ih.1, by rw [ih.2, List.map_cons, List.flatten_cons, nothing, List.nil_append]⟩
    · have hmk : m ≠ k := fun he => hf ((hm.eq_iff hk).mpr he)
      rw [List.filter_cons_of_pos (by simp [hmk]), List.filter_cons_of_pos (by simp [hf])]
      exact ⟨.cons hm ih.1, by rw [List.map_cons, List.flatten_cons, ih.2, List.map_cons,
        List.flatten_cons]⟩

theorem fills_application (hn : ∀ c ∈ name, isQuote c = false) (h : FillsAll ms fs) :
    Fills (application name ms) (fs.map Prod.fst).flatten (application name (fs.map Prod.snd)) := by
  have close : Fills ['>'] [] ['>'] := Fills.refl (by decide)
  have inner : Fills ('<' :: (Text.join "," ms ++ ['>'])) ((fs.map Prod.fst).flatten ++ [])
      ('<' :: (Text.join "," (fs.map Prod.snd) ++ ['>'])) :=
    .plain (by decide) ((Fills.join (by decide) h).append close)
  simpa [application] using (Fills.refl hn).append inner

theorem fills_applyName (hn : ∀ c ∈ name, isQuote c = false) (h : FillsAll ms fs) :
    Fills (applyName name ms) (fs.map Prod.fst).flatten (applyName name (fs.map Prod.snd)) := by
  have any : fs.map Prod.snd = [("any" : Text)] ↔ ms = [("any" : Text)] :=
    h.eq_singleton_iff (by decide)
  rcases applyName_cases name ms with ⟨hname, hms, heq⟩ | ⟨hany, heq⟩
  · have nothing : (fs.map Prod.fst).flatten = [] := by
      rw [hms] at h
      cases h with
      | cons hm hrest =>
        cases hrest
        simp [(hm.eq_of_unquoted (by decide)).1]
    rw [heq, nothing, applyName, if_pos ⟨hname, any.mpr hms⟩]
    exact Fills.refl hn
  · have hany' : ¬ ((name = "array" ∨ name = "set") ∧ fs.map Prod.snd = [("any" : Text)]) :=
      fun he => hany he.1 (any.mp he.2)
    have filled := fills_application hn h
    rw [heq, applyName, if_neg hany']
    simpa [application] using filled

theorem fills_joinTerms (h : FillsAll ms fs) :
    Fills (joinTerms ms) (fs.map Prod.fst).flatten (joinTerms (fs.map Prod.snd)) := by
  have unquoted : ∀ c ∈ ("none" : Text), isQuote c = false := by decide
  have none : ("none" : Text) ∈ fs.map Prod.snd ↔ ("none" : Text) ∈ ms := h.mem_iff unquoted
  have length : (fs.map Prod.snd).length = ms.length := by rw [List.length_map, h.length_eq]
  rcases joinTerms_cases ms with ⟨hlen, hnone, heq⟩ | ⟨halone, heq⟩
  · obtain ⟨others, same⟩ := h.filter unquoted
    have joined : FillsAll [Text.join "|" (ms.filter (· != ("none" : Text)))]
        [(((fs.filter (·.2 != ("none" : Text))).map Prod.fst).flatten,
          Text.join "|" ((fs.filter (·.2 != ("none" : Text))).map Prod.snd))] :=
      .cons (Fills.join (by decide) others) .nil
    have option : ∀ c ∈ ("option" : Text), isQuote c = false := by decide
    have filled := fills_application option joined
    rcases joinTerms_cases (fs.map Prod.snd) with ⟨-, -, heq'⟩ | ⟨halone, -⟩
    · have filtered : (fs.map Prod.snd).filter (· != ("none" : Text)) =
          (fs.filter (·.2 != ("none" : Text))).map Prod.snd := by
        rw [List.filter_map]
        rfl
      rw [heq, heq', filtered, ← same]
      simpa using filled
    · rcases halone with hshort | hmissing
      · omega
      · exact absurd (none.mpr hnone) hmissing
  · rcases joinTerms_cases (fs.map Prod.snd) with ⟨hlen, hnone, -⟩ | ⟨-, heq'⟩
    · rcases halone with hshort | hmissing
      · omega
      · exact absurd (none.mp hnone) hmissing
    · rw [heq, heq']
      exact Fills.join (by decide) h

end Join

/-! ## Normal forms of filled types -/

theorem IsClosed.compact (h : IsClosed t) : IsClosed (compact t) :=
  ⟨h.balanced.compact, h.comma.compact, h.bar.compact⟩

theorem forall₂_of_mem {α β : Type} {R S : α → β → Prop} {as : List α} {bs : List β}
    (h : List.Forall₂ R as bs) (hS : ∀ a ∈ as, ∀ b ∈ bs, R a b → S a b) : List.Forall₂ S as bs := by
  induction h with
  | nil => exact .nil
  | cons hab _ ih =>
    refine .cons (hS _ List.mem_cons_self _ List.mem_cons_self hab) (ih ?_)
    exact fun a ha b hb => hS a (List.mem_cons_of_mem _ ha) b (List.mem_cons_of_mem _ hb)

/-- What is known of the members of a union is known of the union. -/
theorem fills_normalUnion (hs : IsSound ts) (hmembers : ∀ u ∈ ts, ∀ cs s, (∀ c ∈ cs, IsClosed c) →
      Fills u.text cs s → Fills u.normal cs (normalTerm s))
    (hcs : ∀ c ∈ cs, IsClosed c) (h : Fills (typeText ts) cs s) :
    Fills (typeNormal ts) cs (normalUnion s) := by
  have joined : Fills (Text.join ['|'] (ts.map Term.text)) cs s := h
  obtain ⟨fs, hfs, rfl, rfl⟩ := joined.of_join (by decide)
  have members : List.Forall₂ (fun u f => Fills (Term.text u) f.1 f.2) ts fs :=
    List.forall₂_map_left_iff.mp hfs
  have closed (f : List Text × Text) (hf : f ∈ fs) : ∀ c ∈ f.1, IsClosed c := fun c hc =>
    hcs c (List.mem_flatten.mpr ⟨f.1, List.mem_map_of_mem hf, hc⟩)
  have hne : fs ≠ [] := by
    rintro rfl
    cases members
    exact hs.ne_nil rfl
  have parts : splitTop '|' (Text.join ['|'] (fs.map Prod.snd)) = fs.map Prod.snd := by
    refine splitTop_join (by simpa using hne) fun p hp => ?_
    obtain ⟨f, hf, rfl⟩ := List.mem_map.mp hp
    obtain ⟨u, hu, filled⟩ := exists_mem_of_forall₂ members hf
    have sound := hs.members u hu
    exact ⟨filled.balanced (closed f hf) sound.stands.balanced,
      filled.whole (closed f hf) (.inr rfl) sound.stands.balanced sound.whole⟩
  have normals : FillsAll (ts.map Term.normal) (fs.map fun f => (f.1, normalTerm f.2)) := by
    rw [FillsAll, List.forall₂_map_left_iff, List.forall₂_map_right_iff]
    exact forall₂_of_mem members fun u hu f hf => hmembers u hu f.1 f.2 (closed f hf)
  have filled := fills_joinTerms normals
  rw [List.map_map, List.map_map] at filled
  rw [typeNormal_eq hs, normalUnion_eq, parts, List.map_map]
  exact filled

/-- Whether no name with arguments has a quote in it. -/
inductive Term.NamesPlain : Term → Prop
  | word (t : Text) : NamesPlain (.word t)
  | apply {name : Text} {args : List (List Term)} (hname : ∀ c ∈ name, isQuote c = false)
      (h : ∀ ts ∈ args, ∀ t ∈ ts, t.NamesPlain) : NamesPlain (.apply name args)

theorem Term.NamesPlain.of_apply (h : (Term.apply name args).NamesPlain) :
    (∀ c ∈ name, isQuote c = false) ∧ ∀ ts ∈ args, ∀ t ∈ ts, t.NamesPlain := by
  cases h with
  | apply hname h => exact ⟨hname, h⟩

/-- A literal has no brackets that a word could end with. -/
theorem application?_of_fills (h : Fills t cs s) (ht : ∀ c ∈ t, c ≠ '<' ∧ c ≠ '>') :
    application? s = none := by
  rw [Option.eq_none_iff_forall_ne_some]
  rintro ⟨name, args⟩ hs
  rw [eq_of_application? hs, ← List.cons_append, ← List.append_assoc] at h
  obtain ⟨a, rfl, -⟩ := h.of_filled_concat (by decide)
  exact (ht '>' (by simp)).2 rfl

theorem Fills.of_application {name : Text} {args : List Text}
    (hname : ∀ c ∈ name, isQuote c = false) (h : Fills (application name args) cs s) :
    ∃ fs : List (List Text × Text), List.Forall₂ (fun t f => Fills t f.1 f.2) args fs ∧
      cs = (fs.map Prod.fst).flatten ∧ s = application name (fs.map Prod.snd) := by
  rw [application] at h
  obtain ⟨as, bs, x, y, rfl, rfl, hx, hy⟩ := h.of_append_cons (by decide)
  obtain ⟨rfl, rfl⟩ := hx.eq_of_unquoted hname
  obtain ⟨ds, es, z, w, rfl, rfl, hz, hw⟩ := hy.of_append_cons (by decide)
  obtain ⟨rfl, rfl⟩ := hw.eq_of_unquoted (by simp)
  obtain ⟨fs, hfs, rfl, rfl⟩ := hz.of_join (by decide)
  exact ⟨fs, hfs, by simp, rfl⟩

theorem Term.fills_normal (h : u.IsSound) (hp : u.NamesPlain) (hcs : ∀ c ∈ cs, IsClosed c)
    (hf : Fills u.text cs s) : Fills u.normal cs (normalTerm s) := by
  induction h generalizing cs s with
  | word h =>
    rw [Term.text_word] at hf
    rwa [Term.normal_word h, normalTerm_of_atom (application?_of_fills hf h.noAngle)]
  | @apply name args hn hname hne hargs h ih =>
    have sound : (Term.apply name args).IsSound := .apply hn hname hne hargs h
    obtain ⟨hquote, plain⟩ := hp.of_apply
    rw [Term.text_apply] at hf
    obtain ⟨fs, hfs, rfl, rfl⟩ := hf.of_application hquote
    have members : List.Forall₂ (fun ts f => Fills (typeText ts) f.1 f.2) args fs :=
      List.forall₂_map_left_iff.mp hfs
    have closed (f : List Text × Text) (hf : f ∈ fs) : ∀ c ∈ f.1, IsClosed c := fun c hc =>
      hcs c (List.mem_flatten.mpr ⟨f.1, List.mem_map_of_mem hf, hc⟩)
    have hfs : fs ≠ [] := by
      rintro rfl
      cases members
      exact hne rfl
    have inner := sound.arguments
    have parts : splitTop ',' (Text.join [','] (fs.map Prod.snd)) = fs.map Prod.snd := by
      refine splitTop_join (by simpa using hfs) fun p hp => ?_
      obtain ⟨f, hf, rfl⟩ := List.mem_map.mp hp
      obtain ⟨ts, hts, filled⟩ := exists_mem_of_forall₂ members hf
      have stands := (inner ts hts).stands
      exact ⟨filled.balanced (closed f hf) stands.balanced,
        filled.whole (closed f hf) (.inl rfl) stands.balanced stands.comma⟩
    have normals : FillsAll (args.map typeNormal) (fs.map fun f => (f.1, normalUnion f.2)) := by
      rw [FillsAll, List.forall₂_map_left_iff, List.forall₂_map_right_iff]
      refine forall₂_of_mem members fun ts hts f hf filled => ?_
      exact fills_normalUnion (inner ts hts)
        (fun u hu cs s hcs hf => ih ts hts u hu (plain ts hts u hu) hcs hf) (closed f hf) filled
    have applied := fills_applyName hquote normals
    rw [List.map_map, List.map_map] at applied
    have form : application? (application name (fs.map Prod.snd)) =
        some (name, Text.join [','] (fs.map Prod.snd)) :=
      application?_application (hn.not_mem (by decide)) (fs.map Prod.snd)
    rw [Term.normal_apply sound, normalTerm_of_application form, parts, List.map_map]
    exact applied

/-- The text of an option is filled in its argument. -/
theorem Fills.unwrapOption (h : Fills t cs s) : Fills (unwrapOption t) cs (unwrapOption s) := by
  induction t using unwrapOption.induct generalizing cs s with
  | case1 t inner hinner ih =>
    rw [argumentOf?_eq_some_iff.mp hinner] at h
    obtain ⟨as, bs, x, y, rfl, rfl, hx, hy⟩ := h.of_append_cons (by decide)
    obtain ⟨rfl, hxo⟩ := hx.eq_of_unquoted (by decide)
    obtain ⟨ds, es, z, w, rfl, rfl, hz, hw⟩ := hy.of_append_cons (by decide)
    obtain ⟨rfl, rfl⟩ := hw.eq_of_unquoted (by simp)
    have filled : argumentOf? "option" (x ++ '<' :: (z ++ ['>'])) = some z :=
      argumentOf?_eq_some_iff.mpr (by rw [hxo])
    rw [unwrapOption_of_some hinner, unwrapOption_of_some filled, List.nil_append, List.append_nil]
    exact ih hz
  | case2 t hnone =>
    have filled : argumentOf? "option" s = none := by
      rw [Option.eq_none_iff_forall_ne_some]
      intro inner hinner
      have form : s = "option<" ++ (inner ++ ['>']) := argumentOf?_eq_some_iff.mp hinner
      rw [form] at h
      obtain ⟨b, rfl, hb⟩ := h.of_filled_append (by decide)
      obtain ⟨a, rfl, -⟩ := hb.of_filled_concat (by decide)
      have found : argumentOf? "option" ("option<" ++ (a ++ ['>'])) = some a :=
        argumentOf?_eq_some_iff.mpr rfl
      rw [hnone] at found
      cases found
    rwa [unwrapOption_of_none hnone, unwrapOption_of_none filled]

theorem mem_of_mem_unwrapOption {c : Char} (h : c ∈ unwrapOption t) : c ∈ t := by
  induction t using unwrapOption.induct with
  | case1 t inner hinner ih =>
    rw [unwrapOption_of_some hinner] at h
    rw [argumentOf?_eq_some_iff.mp hinner]
    simp [ih h]
  | case2 t hnone => rwa [unwrapOption_of_none hnone] at h

end SchemaDrift.TypeExpr

namespace SchemaDrift

open TypeExpr

/-! ## Custom types of declarations -/

theorem Source.shapeBuilder_custom (indent type : Text) :
    shapeBuilder indent (.custom type) = custom type := rfl

namespace Declaration

/-- The type that a declaration spells out because no constructor stands for it, also inside an
option. -/
def custom? : Declaration → Option Text
  | of (.option inner) _ => inner.custom?
  | of (.custom type) _ => some type
  | _ => none

theorem custom?_option (d : Declaration) (c : Clauses) :
    (of (.option d) c).custom? = d.custom? := rfl

/-- A custom type is the type of its field, without the options around it. -/
theorem custom?_shapeOf_container {inner : Inner} {type args u : Text} {kind : Container}
    {c : Clauses} (hc : container? type = some (kind, some args))
    (h : (of (shapeOf inner type) c).custom? = some u) : u = type := by
  rw [shapeOf_container inner hc] at h
  split at h
  · exact (Option.some.inj h).symm
  · rename_i element _
    cases hs : containerShape? kind element (splitTop ',' args).tail with
    | none =>
      rw [hs] at h
      exact (Option.some.inj h).symm
    | some shape =>
      rw [hs, Option.getD_some] at h
      cases ht : (splitTop ',' args).tail with
      | nil =>
        rw [ht] at hs
        cases hs
        cases h
      | cons max rest =>
        rw [ht] at hs
        obtain ⟨n, -, rfl⟩ := Option.map_eq_some_iff.mp hs
        cases h

theorem custom?_shapeOf {inner : Inner} {type u : Text} {c : Clauses}
    (h : (of (shapeOf inner type) c).custom? = some u) : u = unwrapOption type := by
  induction type using unwrapOption.induct generalizing c with
  | case1 type wrapped hw ih =>
    rw [shapeOf_option inner hw, custom?_option] at h
    rw [unwrapOption_of_some hw]
    exact ih h
  | case2 type hnone =>
    rw [unwrapOption_of_none hnone]
    by_cases hobj : type = "object"
    · rw [hobj, shapeOf_object] at h
      cases h
    cases hc : container? type with
    | none =>
      rw [shapeOf_simple inner hnone hobj hc] at h
      split at h
      · cases h
      · split at h
        · cases h
        · exact (Option.some.inj h).symm
    | some found =>
      obtain ⟨kind, args⟩ := found
      cases args with
      | none =>
        rw [eq_keyword_of_container? hc, shapeOf_bare] at h
        rw [eq_keyword_of_container? hc]
        split at h
        · exact (Option.some.inj h).symm
        · cases h
      | some args => exact custom?_shapeOf_container hc h

/-- The custom type is written into the builder. -/
theorem custom_infix_builder {d : Declaration} {u : Text} (h : d.custom? = some u) (indent : Text) :
    Source.custom u <:+: Source.builder indent d := by
  induction d using custom?.induct with
  | case1 inner c ih =>
    have wrapped : Source.builder indent inner <:+: Source.shapeBuilder indent (.option inner) := by
      rw [Source.shapeBuilder_option]
      exact ⟨_, _, rfl⟩
    exact ((ih h).trans wrapped).trans (Source.shapeBuilder_infix_builder indent _ c)
  | case2 t c =>
    have shape := Source.shapeBuilder_infix_builder indent (.custom t) c
    rw [Source.shapeBuilder_custom] at shape
    have same : t = u := Option.some.inj h
    rw [← same]
    exact shape
  | case3 d hoption hcustom =>
    rw [custom?] at h
    · cases h
    · exact hoption
    · exact hcustom

end Declaration

namespace TypeExpr

/-! ## What is left of a literal -/

variable {t s : Text} {ts : List Term} {cs ds : List Text}

/-- Whether contents can be told apart in a filled text: they have no quotes, or only one of them is
another. -/
def Comparable (cs ds : List Text) : Prop :=
  (∀ content ∈ cs ++ ds, ∀ c ∈ content, isQuote c = false) ∨
    ∃ front c d back, cs = front ++ c :: back ∧ ds = front ++ d :: back

theorem Comparable.compact (h : Comparable cs ds) :
    Comparable (cs.map compact) (ds.map compact) := by
  rcases h with h | ⟨front, c, d, back, rfl, rfl⟩
  · refine .inl fun content hcontent x hx => ?_
    rw [← List.map_append] at hcontent
    obtain ⟨whole, hwhole, rfl⟩ := List.mem_map.mp hcontent
    exact h whole hwhole x (List.mem_of_mem_filter hx)
  · exact .inr ⟨front.map TypeExpr.compact, TypeExpr.compact c, TypeExpr.compact d,
      back.map TypeExpr.compact, by simp, by simp⟩

theorem Comparable.filled_eq_iff (h : Comparable cs ds) {bare : Text} (hs : Fills bare cs s)
    (ht : Fills bare ds t) : s = t ↔ cs = ds := by
  constructor
  · rintro rfl
    rcases h with h | ⟨front, c, d, back, rfl, rfl⟩
    · exact hs.contents_eq ht h
    · rw [hs.content_eq ht]
  · rintro rfl
    exact hs.eq_of_fills ht

/-- A text that is filled with the contents but for their blanks is filled with them just if they
have none. -/
theorem Fills.compact_iff {bare : Text} (h : Fills bare (cs.map TypeExpr.compact) s)
    (hbare : ∀ c ∈ bare, Text.isBlank c = false) :
    Fills bare cs s ↔ ∀ content ∈ cs, ∀ c ∈ content, Text.isBlank c = false := by
  constructor
  · intro h' content hcontent c hc
    rcases h.mem_iff.mp (h'.mem_iff.mpr (.inr ⟨content, hcontent, hc⟩)) with hc |
    ⟨other, hother, hc⟩
    · exact hbare c hc
    · obtain ⟨whole, -, rfl⟩ := List.mem_map.mp hother
      simpa using (List.mem_filter.mp hc).2
  · intro hblankless
    have same : cs.map TypeExpr.compact = cs := by
      rw [List.map_congr_left fun content hcontent => compact_eq_self (hblankless content hcontent)]
      exact List.map_id cs
    rwa [same] at h

/-- What becomes of the contents of the literals in a type `s`, of which `bare` is the type with
empty literals. -/
structure LiteralsKept (bare : Text) (cs : List Text) (s : Text) : Prop where
  /-- The normal form has the contents without their blanks. -/
  filled : Fills (normal bare) (cs.map compact) (normal s)
  kept_iff : Fills (normal bare) cs (normal s) ↔
    ∀ content ∈ cs, ∀ c ∈ content, Text.isBlank c = false
  /-- Types that differ in their contents compare as different just if not only in blanks. -/
  compared : ∀ ds t, Fills bare ds t → (∀ content ∈ ds, IsClosed content) → Comparable cs ds →
    (normal s = normal t ↔ cs.map compact = ds.map compact) ∧
      ∀ (table : Text) (f g : Field), f.type = s → g.type = t →
        ((∃ c ∈ Change.ofField table f g, c.kind = .fieldTypeChanged) ↔
          cs.map compact ≠ ds.map compact)
  /-- A custom type in the code has the contents without their blanks. -/
  declared : ∀ (tab : Table) (f : Field) (u : Text), f.type = s →
    (Declaration.ofField tab f).custom? = some u →
    Fills (unwrapOption (normal bare)) (cs.map compact) u ∧
      (Fills (unwrapOption (normal bare)) cs u ↔
        ∀ content ∈ cs, ∀ c ∈ content, Text.isBlank c = false) ∧
      ∀ indent, Source.custom u <:+: Source.builder indent (Declaration.ofField tab f)

/-- Blanks around the terms of a type are left out of its normal form, and so are those of its
literals. -/
theorem fills_normal {bare : Text} (hts : IsSound ts) (hnames : ∀ u ∈ ts, u.NamesPlain)
    (hbare : compact bare = typeText ts) (h : Fills bare cs s) (hcs : ∀ c ∈ cs, IsClosed c) :
    Fills (normal bare) (cs.map compact) (normal s) := by
  have filled := h.compact
  rw [hbare] at filled
  have closed : ∀ c ∈ cs.map compact, IsClosed c := by
    intro c hc
    obtain ⟨whole, hwhole, rfl⟩ := List.mem_map.mp hc
    exact (hcs whole hwhole).compact
  rw [normal_eq, normal_eq, hbare]
  exact fills_normalUnion hts (fun u hu cs s hcs hf =>
    Term.fills_normal (hts.members u hu) (hnames u hu) hcs hf) closed filled

/-- The contents of literals that close their brackets and hide their separators in them are kept
but for their blanks: in the normal form, in a comparison and in a custom type in the code. -/
theorem literals_kept {bare : Text} (hts : IsSound ts) (hnames : ∀ u ∈ ts, u.NamesPlain)
    (hbare : compact bare = typeText ts) (h : Fills bare cs s) (hcs : ∀ c ∈ cs, IsClosed c) :
    LiteralsKept bare cs s := by
  have filled := fills_normal hts hnames hbare h hcs
  have form : normal bare = typeNormal ts := by rw [normal_eq, hbare, typeNormal]
  have blankless : ∀ c ∈ normal bare, Text.isBlank c = false := by
    rw [form]
    exact hts.settled.blankless
  have compared (ds : List Text) (t : Text) (h' : Fills bare ds t)
      (hds : ∀ content ∈ ds, IsClosed content) (hcomp : Comparable cs ds) :
      normal s = normal t ↔ cs.map compact = ds.map compact :=
    hcomp.compact.filled_eq_iff filled (fills_normal hts hnames hbare h' hds)
  refine ⟨filled, filled.compact_iff blankless, fun ds t h' hds hcomp => ?_, ?_⟩
  · refine ⟨compared ds t h' hds hcomp, fun table f g hf hg => ?_⟩
    rw [Change.exists_fieldTypeChanged_iff, hf, hg, ne_eq, compared ds t h' hds hcomp]
  · intro tab f u hf hu
    have type : u = unwrapOption (normal s) := by
      rw [Declaration.ofField_eq, hf] at hu
      exact Declaration.custom?_shapeOf hu
    have unwrapped := filled.unwrapOption
    rw [← type] at unwrapped
    exact ⟨unwrapped, unwrapped.compact_iff fun c hc => blankless c (mem_of_mem_unwrapOption hc),
      Declaration.custom_infix_builder hu⟩

theorem fills_status (content : Text) :
    Fills "'' | ''" [content, "done"] ('\'' :: (content ++ "' | 'done'")) :=
  .literal (by decide) content
    (.append (Fills.refl (by decide) : Fills " | " [] " | ") (.literal (by decide) "done" .nil))

/-- Two literals, one of them with a blank in it. -/
theorem literals_kept_status :
    IsSound [.word "''", .word "''"] ∧ (∀ u ∈ [Term.word "''", .word "''"], u.NamesPlain) ∧
      compact "'' | ''" = typeText [.word "''", .word "''"] ∧
      Fills "'' | ''" ["in progress", "done"] "'in progress' | 'done'" ∧
      (∀ c ∈ [("in progress" : Text), "done"], IsClosed c) ∧
      LiteralsKept "'' | ''" ["in progress", "done"] "'in progress' | 'done'" := by
  have sound : IsSound [.word "''", .word "''"] := by
    refine ⟨by simp, ?_⟩
    simp only [List.forall_mem_cons]
    exact ⟨.word (by decide), .word (by decide), by simp⟩
  have names : ∀ u ∈ [Term.word "''", .word "''"], u.NamesPlain := by
    simp only [List.forall_mem_cons]
    exact ⟨.word _, .word _, by simp⟩
  have bare : compact "'' | ''" = typeText [.word "''", .word "''"] := by
    simp only [typeText, List.map, Term.text_word]
    decide
  have closed : ∀ c ∈ [("in progress" : Text), "done"], IsClosed c := by decide
  exact ⟨sound, names, bare, fills_status "in progress", closed,
    literals_kept sound names bare (fills_status "in progress") closed⟩

/-- A blank in a literal is lost, so that two literals are taken for one, and a separator and a name
in a literal are taken for those of the type. -/
theorem literals_lost :
    Fills "'' | ''" ["in progress", "done"] "'in progress' | 'done'" ∧
      Fills "'' | ''" ["inprogress", "done"] "'inprogress' | 'done'" ∧
      normal "'in progress' | 'done'" = normal "'inprogress' | 'done'" ∧
      normal "'a|none|b'" = "option<'a|b'>" := by
  have same : compact "'in progress' | 'done'" = compact "'inprogress' | 'done'" := by decide
  have whole : compact "'a|none|b'" = "'a|none|b'" := by decide
  have parts : splitTop '|' "'a|none|b'" = [("'a" : Text), "none", "b'"] := by decide
  refine ⟨fills_status "in progress", fills_status "inprogress",
    by rw [normal_eq, same, ← normal_eq], ?_⟩
  rw [normal_eq, whole, normalUnion_eq, parts, List.map_cons, List.map_cons, List.map_cons,
    List.map_nil, normalTerm_of_atom (by decide), normalTerm_of_atom (by decide),
    normalTerm_of_atom (by decide)]
  rfl

end TypeExpr

end SchemaDrift
