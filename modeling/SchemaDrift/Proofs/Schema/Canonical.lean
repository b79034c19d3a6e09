import Mathlib.Data.List.Forall2
import Mathlib.Logic.Relation
import SchemaDrift.Proofs.Schema.Terms

namespace SchemaDrift.TypeExpr

/-!
# The normal form is canonical

Types can be rewritten: `none` moves and repeats in a union, an option is a union with `none`, and
the containers of anything need no argument. Two types have one normal form just if they can be
rewritten into each other, whatever blanks they are written with.
-/

variable {t a : Text} {u v : Term} {name : Text} {ts us : List Term} {args : List (List Term)}
  {before after : List Term}

def Term.isNone : Term → Bool
  | .word t => t == "none"
  | .apply _ _ => false

/-- A type rewritten at one place. -/
inductive Step : List Term → List Term → Prop
  /-- Beside another member, `none` can stand at any places of a union. -/
  | nones {ts us : List Term} (hothers : ts.filter (!·.isNone) = us.filter (!·.isNone))
      (hts : 1 < ts.length ∧ ts.any Term.isNone) (hus : 1 < us.length ∧ us.any Term.isNone) :
      Step ts us
  /-- An option that is a whole type is a union with `none`. -/
  | option {ts : List Term} (hne : ts ≠ []) (hnone : ts.any Term.isNone = false) :
      Step [.apply "option" [ts]] (.word "none" :: ts)
  | any {before after : List Term} (kind : Container) :
      Step (before ++ .apply kind.keyword [[.word "any"]] :: after)
        (before ++ .word kind.keyword :: after)
  /-- A step in an argument. -/
  | inside {before after : List Term} {name : Text} {front back : List (List Term)}
      {ts us : List Term} (h : Step ts us) :
      Step (before ++ .apply name (front ++ ts :: back) :: after)
        (before ++ .apply name (front ++ us :: back) :: after)

/-- Whether two types can be rewritten into each other. -/
def Same : List Term → List Term → Prop := Relation.EqvGen Step

/-! ## One step -/

theorem isWord_none : IsWord "none" := IsAtom.isWord (by decide) (by decide)

theorem isWord_any : IsWord "any" := IsAtom.isWord (by decide) (by decide)

theorem isWord_keyword (kind : Container) : IsWord kind.keyword := by
  cases kind
  · exact IsAtom.isWord (by decide) (by decide)
  · exact IsAtom.isWord (by decide) (by decide)

theorem Term.isNone_iff : u.isNone = true ↔ u = .word "none" := by
  cases u with
  | word t => simp [Term.isNone]
  | apply name args => simp [Term.isNone]

theorem isSound_singleton (h : u.IsSound) : IsSound [u] :=
  ⟨by simp, fun v hv => List.mem_singleton.mp hv ▸ h⟩

/-- A member of a union can be exchanged for another one that can be written. -/
theorem isSound_exchange (h : u.IsSound → v.IsSound) (hs : IsSound (before ++ u :: after)) :
    IsSound (before ++ v :: after) := by
  refine ⟨by simp, fun w hw => ?_⟩
  have member (w : Term) (hw : w ∈ before ++ u :: after) : w.IsSound := hs.members w hw
  rcases List.mem_append.mp hw with hw | hw
  · exact member w (List.mem_append_left _ hw)
  · rcases List.mem_cons.mp hw with rfl | hw
    · exact h (member u (by simp))
    · exact member w (List.mem_append_right _ (List.mem_cons_of_mem u hw))

theorem Term.IsSound.exchange_argument {front back : List (List Term)}
    (h : TypeExpr.IsSound ts → TypeExpr.IsSound us)
    (hs : (Term.apply name (front ++ ts :: back)).IsSound) :
    (Term.apply name (front ++ us :: back)).IsSound := by
  have inner := hs.arguments
  have all : ∀ ws ∈ front ++ us :: back, TypeExpr.IsSound ws := by
    intro ws hws
    rcases List.mem_append.mp hws with hws | hws
    · exact inner ws (List.mem_append_left _ hws)
    · rcases List.mem_cons.mp hws with rfl | hws
      · exact h (inner ts (by simp))
      · exact inner ws (List.mem_append_right _ (List.mem_cons_of_mem ts hws))
  cases hs with
  | apply hn hname _ _ _ =>
    exact .apply hn hname (by simp) (fun ws hws => (all ws hws).ne_nil)
      fun ws hws => (all ws hws).members

theorem isSound_of_filter (hothers : ts.filter (!·.isNone) = us.filter (!·.isNone))
    (hne : us ≠ []) (h : IsSound ts) : IsSound us := by
  refine ⟨hne, fun u hu => ?_⟩
  cases hnone : u.isNone with
  | true =>
    rw [Term.isNone_iff.mp hnone]
    exact .word isWord_none
  | false =>
    have other : u ∈ us.filter (!·.isNone) := List.mem_filter.mpr ⟨hu, by simp [hnone]⟩
    rw [← hothers] at other
    exact h.members u (List.mem_filter.mp other).1

theorem isSound_apply_iff (hn : IsAtom name) (hname : name ≠ []) :
    (Term.apply name args).IsSound ↔ args ≠ [] ∧ ∀ ts ∈ args, IsSound ts := by
  constructor
  · intro h
    refine ⟨?_, h.arguments⟩
    cases h with
    | apply _ _ hne _ _ => exact hne
  · rintro ⟨hne, h⟩
    exact .apply hn hname hne (fun ts hts => (h ts hts).ne_nil) fun ts hts => (h ts hts).members

theorem isSound_iff_of_step (h : Step ts us) : IsSound ts ↔ IsSound us := by
  induction h with
  | nones hothers hts hus =>
    constructor
    · exact isSound_of_filter hothers (List.ne_nil_of_length_pos (by omega))
    · exact isSound_of_filter hothers.symm (List.ne_nil_of_length_pos (by omega))
  | @option ts hne hnone =>
    constructor
    · intro h
      have inner := (h.members _ (List.mem_singleton_self _)).arguments ts
        (List.mem_singleton_self _)
      refine ⟨by simp, fun u hu => ?_⟩
      rcases List.mem_cons.mp hu with rfl | hu
      · exact .word isWord_none
      · exact inner.members u hu
    · intro h
      have inner : IsSound ts := ⟨hne, fun u hu => h.members u (List.mem_cons_of_mem _ hu)⟩
      apply isSound_singleton
      rw [isSound_apply_iff (by decide) (by decide)]
      exact ⟨by simp, fun ws hws => List.mem_singleton.mp hws ▸ inner⟩
  | any kind =>
    constructor
    · exact isSound_exchange fun _ => .word (isWord_keyword kind)
    · refine isSound_exchange fun _ => ?_
      have name : IsAtom kind.keyword := Declaration.isAtom_keyword kind
      rw [isSound_apply_iff name (isWord_keyword kind).ne_nil]
      refine ⟨by simp, fun ws hws => ?_⟩
      rw [List.mem_singleton.mp hws]
      exact isSound_singleton (.word isWord_any)
  | inside _ ih =>
    constructor
    · exact isSound_exchange (Term.IsSound.exchange_argument ih.mp)
    · exact isSound_exchange (Term.IsSound.exchange_argument ih.mpr)

theorem isSound_iff_of_same (h : Same ts us) : IsSound ts ↔ IsSound us := by
  induction h with
  | rel _ _ h => exact isSound_iff_of_step h
  | refl _ => exact Iff.rfl
  | symm _ _ _ ih => exact ih.symm
  | trans _ _ _ _ _ ih₁ ih₂ => exact ih₁.trans ih₂

theorem Term.IsSound.normal_eq_none_iff (h : u.IsSound) :
    u.normal = "none" ↔ u.isNone = true := by
  rw [Term.isNone_iff]
  constructor
  · intro hu
    cases h with
    | word h =>
      rw [Term.normal_word h] at hu
      rw [hu]
    | @apply name args hn hname hne hargs h =>
      rw [Term.normal_apply (.apply hn hname hne hargs h)] at hu
      rcases applyName_cases name (args.map typeNormal) with ⟨hcontainer, -, heq⟩ | ⟨-, heq⟩
      · rw [heq] at hu
        rcases hcontainer with hc | hc
        · rw [hu] at hc
          exact absurd hc (by decide)
        · rw [hu] at hc
          exact absurd hc (by decide)
      · rw [heq] at hu
        have opening : '<' ∈ ("none" : Text) := by
          rw [← hu]
          simp [application]
        exact absurd opening (by decide)
  · rintro rfl
    exact Term.normal_word isWord_none

theorem IsSound.none_mem_iff (h : IsSound ts) :
    ("none" : Text) ∈ ts.map Term.normal ↔ ts.any Term.isNone = true := by
  rw [List.mem_map, List.any_eq_true]
  constructor
  · rintro ⟨u, hu, hnone⟩
    exact ⟨u, hu, (h.members u hu).normal_eq_none_iff.mp hnone⟩
  · rintro ⟨u, hu, hnone⟩
    exact ⟨u, hu, (h.members u hu).normal_eq_none_iff.mpr hnone⟩

theorem IsSound.filter_normal (h : IsSound ts) :
    (ts.map Term.normal).filter (· != ("none" : Text)) =
    (ts.filter (!·.isNone)).map Term.normal := by
  rw [List.filter_map]
  congr 1
  refine List.filter_congr fun u hu => ?_
  have same := (h.members u hu).normal_eq_none_iff
  cases hnone : u.isNone with
  | true => simp [same.mpr hnone]
  | false => simpa using fun he => by simp [hnone] at same; exact same he

/-- A union with `none` and another member is an option of the others. -/
theorem IsSound.typeNormal_of_none (h : IsSound ts) (hlen : 1 < ts.length)
    (hnone : ts.any Term.isNone = true) : typeNormal ts =
      application "option" [Text.join "|" ((ts.filter (!·.isNone)).map Term.normal)] := by
  rw [typeNormal_eq h, ← h.filter_normal]
  rcases joinTerms_cases (ts.map Term.normal) with ⟨-, -, heq⟩ | ⟨hother, -⟩
  · exact heq
  · rcases hother with hshort | hmissing
    · rw [List.length_map] at hshort
      omega
    · exact absurd (h.none_mem_iff.mpr hnone) hmissing

/-- Any other union is made of the normal forms of its members. -/
theorem IsSound.typeNormal_of_plain (h : IsSound ts)
    (hplain : ts.length ≤ 1 ∨ ts.any Term.isNone = false) :
    typeNormal ts = Text.join "|" (ts.map Term.normal) := by
  rw [typeNormal_eq h]
  rcases joinTerms_cases (ts.map Term.normal) with ⟨hlen, hmem, -⟩ | ⟨-, heq⟩
  · rw [List.length_map] at hlen
    rcases hplain with hshort | hmissing
    · omega
    · rw [h.none_mem_iff, hmissing] at hmem
      cases hmem
  · exact heq

theorem typeNormal_exchange (hv : u.IsSound → v.IsSound) (he : u.normal = v.normal)
    (h : IsSound (before ++ u :: after)) :
    typeNormal (before ++ u :: after) = typeNormal (before ++ v :: after) := by
  rw [typeNormal_eq h, typeNormal_eq (isSound_exchange hv h)]
  simp [he]

theorem typeNormal_eq_of_step (h : Step ts us) (hs : IsSound ts) :
    typeNormal ts = typeNormal us := by
  have hs' := (isSound_iff_of_step h).mp hs
  induction h with
  | nones hothers hts hus =>
    rw [hs.typeNormal_of_none hts.1 hts.2, hs'.typeNormal_of_none hus.1 hus.2, hothers]
  | @option ts hne hnone =>
    have term := hs.members _ (List.mem_singleton_self _)
    have inner := term.arguments ts (List.mem_singleton_self _)
    have others : (Term.word "none" :: ts).filter (!·.isNone) = ts := by
      rw [List.filter_cons_of_neg (by simp [Term.isNone]), List.filter_eq_self]
      intro u hu
      simpa using List.any_eq_false.mp hnone u hu
    have long : 1 < (Term.word "none" :: ts).length := by
      have := List.length_pos_iff.mpr hne
      simpa using this
    rw [hs'.typeNormal_of_none long (by simp [Term.isNone]), others,
      hs.typeNormal_of_plain (.inl (by simp)), List.map_singleton, Text.join_singleton,
      Term.normal_apply term, List.map_singleton, inner.typeNormal_of_plain (.inr hnone)]
    simp [applyName, application]
  | @any before after kind =>
    have term := hs.members (.apply kind.keyword [[.word "any"]]) (by simp)
    refine typeNormal_exchange (fun _ => .word (isWord_keyword kind)) ?_ hs
    have inner := term.arguments _ (List.mem_singleton_self _)
    rw [Term.normal_apply term, Term.normal_word (isWord_keyword kind), List.map_singleton,
      inner.typeNormal_of_plain (.inl (by simp)), List.map_singleton, Text.join_singleton,
      Term.normal_word isWord_any]
    cases kind
    · rfl
    · rfl
  | @inside before after name front back ts us hstep ih =>
    have term := hs.members (.apply name (front ++ ts :: back)) (by simp)
    have inner := term.arguments ts (by simp)
    have sound := Term.IsSound.exchange_argument (isSound_iff_of_step hstep).mp term
    refine typeNormal_exchange (fun _ => sound) ?_ hs
    rw [Term.normal_apply term, Term.normal_apply sound]
    simp [ih inner ((isSound_iff_of_step hstep).mp inner)]

theorem typeNormal_eq_of_same (h : Same ts us) (hs : IsSound ts) :
    typeNormal ts = typeNormal us := by
  induction h with
  | rel _ _ h => exact typeNormal_eq_of_step h hs
  | refl _ => rfl
  | symm _ _ h ih => exact (ih ((isSound_iff_of_same h).mpr hs)).symm
  | trans _ _ _ h₁ _ ih₁ ih₂ => exact (ih₁ hs).trans (ih₂ ((isSound_iff_of_same h₁).mp hs))

/-! ## From a normal form back -/

theorem Same.trans {vs : List Term} (h : Same ts us) (h' : Same us vs) : Same ts vs :=
  Relation.EqvGen.trans ts us vs h h'

theorem Same.symm (h : Same ts us) : Same us ts := Relation.EqvGen.symm ts us h

theorem Step.same (h : Step ts us) : Same ts us := Relation.EqvGen.rel ts us h

theorem Same.refl (ts : List Term) : Same ts ts := Relation.EqvGen.refl ts

/-- Whether a member can be exchanged for another one in every union. -/
def Replaces (u v : Term) : Prop :=
  ∀ before after, Same (before ++ u :: after) (before ++ v :: after)

theorem Replaces.trans {w : Term} (h : Replaces u v) (h' : Replaces v w) : Replaces u w :=
  fun before after => (h before after).trans (h' before after)

theorem Replaces.symm (h : Replaces u v) : Replaces v u :=
  fun before after => (h before after).symm

theorem same_of_forall₂ (h : List.Forall₂ Replaces ts us) (before : List Term) :
    Same (before ++ ts) (before ++ us) := by
  induction h generalizing before with
  | nil => exact .refl _
  | @cons u v ts us huv _ ih =>
    have rest := ih (before ++ [v])
    rw [List.append_assoc, List.append_assoc] at rest
    exact (huv before ts).trans rest

theorem replaces_of_same (h : Same ts us) (front back : List (List Term)) :
    Replaces (.apply name (front ++ ts :: back)) (.apply name (front ++ us :: back)) := by
  intro before after
  induction h with
  | rel _ _ h => exact Step.same (.inside h)
  | refl _ => exact .refl _
  | symm _ _ _ ih => exact ih.symm
  | trans _ _ _ _ _ ih₁ ih₂ => exact ih₁.trans ih₂

theorem replaces_of_forall₂ {args' : List (List Term)} (h : List.Forall₂ Same args args')
    (front : List (List Term)) :
    Replaces (.apply name (front ++ args)) (.apply name (front ++ args')) := by
  induction h generalizing front with
  | nil => exact fun before after => .refl _
  | @cons ts us args args' htu _ ih =>
    have rest := ih (front ++ [us])
    rw [List.append_assoc, List.append_assoc] at rest
    exact (replaces_of_same htu front args).trans rest

/-- What the normal form of a term tells of it. -/
inductive Term.Read : Term → Text → Prop
  | word {t : Text} (h : IsWord t) : Read (.word t) t
  | any {name : Text} {ts : List Term} (kind : Container) (hname : name = kind.keyword)
      (h : TypeExpr.IsSound ts) (hany : typeNormal ts = "any") : Read (.apply name [ts]) name
  | apply {name : Text} {args : List (List Term)} (hn : IsAtom name) (hne : args ≠ [])
      (h : ∀ ts ∈ args, TypeExpr.IsSound ts) :
      Read (.apply name args) (application name (args.map typeNormal))

theorem Term.IsSound.read (h : u.IsSound) : u.Read u.normal := by
  cases h with
  | word h =>
    rw [Term.normal_word h]
    exact .word h
  | @apply name args hn hname hne hargs h =>
    have sound : (Term.apply name args).IsSound := .apply hn hname hne hargs h
    have inner := sound.arguments
    rw [Term.normal_apply sound]
    rcases applyName_cases name (args.map typeNormal) with ⟨hcontainer, hany, heq⟩ | ⟨-, heq⟩
    · obtain ⟨ts, rfl, hts⟩ := List.map_eq_singleton_iff.mp hany
      have kind : ∃ kind : Container, name = kind.keyword := by
        rcases hcontainer with rfl | rfl
        · exact ⟨.array, rfl⟩
        · exact ⟨.set, rfl⟩
      obtain ⟨kind, hkind⟩ := kind
      rw [heq]
      exact .any kind hkind (inner ts (List.mem_singleton_self _)) hts
    · rw [heq]
      exact .apply hn hne inner

theorem application_ne_of_not_mem (h : '<' ∉ a) (name : Text) (as : List Text) :
    application name as ≠ a := by
  rintro rfl
  exact h (by simp [application])

theorem IsWord.not_angle (h : IsWord t) : '<' ∉ t := fun hm => (h.noAngle _ hm).1 rfl

theorem Term.Read.ne_nil (h : u.Read t) : t ≠ [] := by
  cases h with
  | word h => exact h.ne_nil
  | any kind hname _ _ =>
    rw [hname]
    exact (isWord_keyword kind).ne_nil
  | apply _ _ _ => simp [application]

theorem IsSound.normal_ne_nil (h : IsSound ts) : typeNormal ts ≠ [] := by
  rw [typeNormal_eq h]
  rcases joinTerms_cases (ts.map Term.normal) with ⟨-, -, heq⟩ | ⟨-, heq⟩
  · rw [heq]
    simp [application]
  · rw [heq]
    cases ts with
    | nil => exact absurd rfl h.ne_nil
    | cons u ts =>
      have first : u.normal ≠ [] := (h.members u List.mem_cons_self).read.ne_nil
      cases ts with
      | nil => simpa using first
      | cons v ts =>
        rw [List.map_cons, List.map_cons, Text.join_cons_cons]
        simp

/-- Each type can be rewritten to one that is no union with `none`, unless it is a union of `none`
alone. -/
theorem IsSound.exists_plain (h : IsSound ts) : (1 < ts.length ∧ ∀ u ∈ ts, u.isNone = true) ∨
    ∃ us, Same ts us ∧ IsSound us ∧ (us.length ≤ 1 ∨ us.any Term.isNone = false) := by
  by_cases hnone : 1 < ts.length ∧ ts.any Term.isNone = true
  · by_cases hothers : ts.filter (!·.isNone) = []
    · refine .inl ⟨hnone.1, fun u hu => ?_⟩
      simpa using List.filter_eq_nil_iff.mp hothers u hu
    · have missing : (ts.filter (!·.isNone)).any Term.isNone = false := by
        refine List.any_eq_false.mpr fun u hu => ?_
        simpa using (List.mem_filter.mp hu).2
      have moved : Same ts (.word "none" :: ts.filter (!·.isNone)) := by
        refine Step.same (.nones ?_ hnone ⟨?_, by simp [Term.isNone]⟩)
        · rw [List.filter_cons_of_neg (by simp [Term.isNone]), List.filter_filter]
          simp
        · have := List.length_pos_iff.mpr hothers
          simpa using this
      have wrapped := moved.trans (Step.same (.option hothers missing)).symm
      exact .inr ⟨_, wrapped, (isSound_iff_of_same wrapped).mp h, .inl (by simp)⟩
  · refine .inr ⟨ts, .refl ts, h, ?_⟩
    rcases not_and_or.mp hnone with hlen | hmissing
    · exact .inl (not_lt.mp hlen)
    · exact .inr (by simpa using hmissing)

theorem mem_join_of_two {sep : Char} (p q : Text) (parts : List Text) :
    sep ∈ Text.join [sep] (p :: q :: parts) := by
  rw [Text.join_cons_cons]
  simp

/-- A type that is normally a word is a member of its own. -/
theorem IsSound.exists_singleton (h : IsSound ts) (ht : '|' ∉ t) (hn : typeNormal ts = t)
    (hplain : ts.length ≤ 1 ∨ ts.any Term.isNone = false) : ∃ u, ts = [u] ∧ u.normal = t := by
  have joined := h.typeNormal_of_plain hplain
  match ts, h.ne_nil with
  | [u], _ =>
    refine ⟨u, rfl, ?_⟩
    rw [← hn, joined]
    simp
  | u :: v :: ts, _ =>
    refine absurd ?_ ht
    rw [← hn, joined, List.map_cons, List.map_cons]
    exact mem_join_of_two _ _ _

theorem not_mem_keyword (kind : Container) : '<' ∉ kind.keyword := (isWord_keyword kind).not_angle

/-- A union of `none` alone is like no other type. -/
theorem IsSound.typeNormal_of_forall (h : IsSound ts) (hlen : 1 < ts.length)
    (hnone : ∀ u ∈ ts, u.isNone = true) : typeNormal ts = application "option" [[]] := by
  have any : ts.any Term.isNone = true := by
    obtain ⟨u, hu⟩ := List.exists_mem_of_ne_nil ts h.ne_nil
    exact List.any_eq_true.mpr ⟨u, hu, hnone u hu⟩
  have others : ts.filter (!·.isNone) = [] :=
    List.filter_eq_nil_iff.mpr fun u hu => by simp [hnone u hu]
  rw [h.typeNormal_of_none hlen any, others]
  rfl

theorem IsSound.ne_of_plain (h : IsSound ts)
    (hplain : ts.length ≤ 1 ∨ ts.any Term.isNone = false) :
    typeNormal ts ≠ application "option" [[]] := by
  intro he
  obtain ⟨u, rfl, hu⟩ := h.exists_singleton (by decide) he hplain
  have read := (h.members u (List.mem_singleton_self _)).read
  rw [hu] at read
  generalize ht : application "option" [[]] = t at read
  cases read with
  | word hword => exact application_ne_of_not_mem hword.not_angle _ _ ht
  | any kind hname _ _ => exact application_ne_of_not_mem (hname ▸ not_mem_keyword kind) _ _ ht
  | @apply name args hn hne hargs =>
    obtain ⟨ts, args, rfl⟩ := List.exists_cons_of_ne_nil hne
    have first := (hargs ts List.mem_cons_self).normal_ne_nil
    have cut := congrArg (Text.cutAt ['<']) ht
    rw [application, cutAt_char (by decide), application,
      cutAt_char (hn.not_mem (by decide))] at cut
    have inner := List.append_cancel_right (Prod.mk.inj (Option.some.inj cut)).2
    cases args with
    | nil =>
      rw [List.map_cons, List.map_nil, Text.join_singleton, Text.join_singleton] at inner
      exact first inner.symm
    | cons us args =>
      rw [List.map_cons, List.map_cons, Text.join_cons_cons, Text.join_singleton] at inner
      simp at inner

theorem IsSound.same_any (h : IsSound ts) (hany : typeNormal ts = "any") :
    Same ts [.word "any"] := by
  rcases h.exists_plain with ⟨hlen, hnone⟩ | ⟨us, same, sound, hplain⟩
  · rw [h.typeNormal_of_forall hlen hnone] at hany
    exact absurd hany (by decide)
  · rw [typeNormal_eq_of_same same h] at hany
    obtain ⟨u, rfl, hu⟩ := sound.exists_singleton (by decide) hany hplain
    have read := (sound.members u (List.mem_singleton_self _)).read
    rw [hu] at read
    generalize ht : ("any" : Text) = t at read
    cases read with
    | word _ =>
      subst ht
      exact same
    | any kind hname _ _ =>
      rw [hname] at ht
      exact absurd ht (by cases kind <;> decide)
    | apply _ _ _ => exact absurd ht.symm (application_ne_of_not_mem (by decide) _ _)

/-- A term whose normal form has no arguments can be exchanged for this word. -/
theorem Term.Read.replaces_word (h : u.Read t) (ht : '<' ∉ t) : Replaces u (.word t) := by
  cases h with
  | word _ => exact fun before after => .refl _
  | any kind hname hs hany =>
    refine (replaces_of_same (hs.same_any hany) [] []).trans fun before after => ?_
    rw [hname]
    exact Step.same (.any kind)
  | apply _ _ _ => exact absurd rfl (application_ne_of_not_mem ht _ _)

theorem length_le_join {sep p : Text} {parts : List Text} (h : p ∈ parts) :
    p.length ≤ (Text.join sep parts).length := by
  obtain ⟨front, back, rfl⟩ := List.append_of_mem h
  induction front with
  | nil =>
    cases back with
    | nil => simp
    | cons q back =>
      rw [List.nil_append, Text.join_cons_cons, List.length_append]
      omega
  | cons q front ih =>
    have rest := ih (by simp)
    cases hb : front ++ p :: back with
    | nil => simp at hb
    | cons r parts =>
      rw [hb] at rest
      rw [List.cons_append, hb, Text.join_cons_cons, List.length_append, List.length_append]
      omega

/-- Texts without a separator of their own can be told from what they are joined to. -/
theorem join_inj {sep : Char} {as bs : List Text} (has : as ≠ []) (hbs : bs ≠ [])
    (ha : ∀ a ∈ as, Balanced 0 a ∧ Whole sep a) (hb : ∀ b ∈ bs, Balanced 0 b ∧ Whole sep b)
    (h : Text.join [sep] as = Text.join [sep] bs) : as = bs := by
  rw [← splitTop_join has ha, h, splitTop_join hbs hb]

/-- Lists with the same images are related if their members with the same image are. -/
theorem forall₂_of_map_eq {α β : Type} {R : α → α → Prop} {f : α → β} {as bs : List α}
    (hR : ∀ a ∈ as, ∀ b ∈ bs, f a = f b → R a b) (h : as.map f = bs.map f) :
    List.Forall₂ R as bs := by
  induction as generalizing bs with
  | nil =>
    obtain rfl := List.map_eq_nil_iff.mp h.symm
    exact .nil
  | cons a as ih =>
    cases bs with
    | nil => cases h
    | cons b bs =>
      obtain ⟨hfirst, hrest⟩ := List.cons.inj h
      refine .cons (hR a List.mem_cons_self b List.mem_cons_self hfirst) (ih ?_ hrest)
      exact fun a ha b hb => hR a (List.mem_cons_of_mem _ ha) b (List.mem_cons_of_mem _ hb)

theorem typeNormal_length_lt {ts : List Term} (h : ts ∈ args) :
    (typeNormal ts).length < (application name (args.map typeNormal)).length := by
  have : (typeNormal ts).length ≤ (Text.join "," (args.map typeNormal)).length :=
    length_le_join (List.mem_map_of_mem h)
  simp only [application, List.length_append, List.length_cons, List.length_nil]
  omega

/-- Terms of one normal form can be exchanged, if that is known of the types in it. -/
theorem replaces_of_normal_eq (hu : u.IsSound) (hv : v.IsSound) (he : u.normal = v.normal)
    (ih : ∀ ts us, (typeNormal ts).length < u.normal.length → IsSound ts → IsSound us →
      typeNormal ts = typeNormal us → Same ts us) : Replaces u v := by
  have hread := hu.read
  have hread' := hv.read
  rw [← he] at hread'
  by_cases hangle : '<' ∈ u.normal
  · generalize ht : u.normal = t at hread hread' ih hangle
    cases hread with
    | word h => exact absurd hangle h.not_angle
    | any kind hname _ _ => exact absurd hangle (hname ▸ not_mem_keyword kind)
    | @apply name args hn hne hargs =>
      generalize ht' : application name (args.map typeNormal) = t' at hread' hangle
      cases hread' with
      | word h => exact absurd hangle h.not_angle
      | any kind hname _ _ => exact absurd hangle (hname ▸ not_mem_keyword kind)
      | @apply name' args' hn' hne' hargs' =>
        have cut := congrArg (Text.cutAt ['<']) ht'
        rw [application, cutAt_char (hn.not_mem (by decide)), application,
          cutAt_char (hn'.not_mem (by decide))] at cut
        obtain ⟨rfl, inner⟩ := Prod.mk.inj (Option.some.inj cut)
        have whole (as : List (List Term)) (has : ∀ ts ∈ as, IsSound ts) :
            ∀ a ∈ as.map typeNormal, Balanced 0 a ∧ Whole ',' a := by
          intro a ha
          obtain ⟨ts, hts, rfl⟩ := List.mem_map.mp ha
          exact ⟨(has ts hts).settled.balanced, (has ts hts).settled.whole⟩
        have parts : args.map typeNormal = args'.map typeNormal :=
          join_inj (by simpa using hne) (by simpa using hne') (whole args hargs)
            (whole args' hargs')
            (List.append_cancel_right inner)
        refine replaces_of_forall₂ (forall₂_of_map_eq (fun ts hts us hus same => ?_) parts) []
        exact ih ts us (typeNormal_length_lt hts) (hargs ts hts) (hargs' us hus) same
  · exact (hread.replaces_word hangle).trans (hread'.replaces_word hangle).symm

theorem same_of_typeNormal_eq (hs : IsSound ts) (hs' : IsSound us)
    (he : typeNormal ts = typeNormal us) : Same ts us := by
  induction hlen : (typeNormal ts).length using Nat.strong_induction_on generalizing ts us with
  | _ n ih =>
  rcases hs.exists_plain with ⟨hlen₁, hnone₁⟩ | ⟨vs, same₁, sound₁, hplain₁⟩
  · rcases hs'.exists_plain with ⟨hlen₂, hnone₂⟩ | ⟨ws, same₂, sound₂, hplain₂⟩
    · have both (as : List Term) (hsound : IsSound as) (hall : ∀ u ∈ as, u.isNone = true) :
          as.filter (!·.isNone) = [] ∧ as.any Term.isNone = true := by
        obtain ⟨u, hu⟩ := List.exists_mem_of_ne_nil as hsound.ne_nil
        exact ⟨List.filter_eq_nil_iff.mpr fun u hu => by simp [hall u hu],
          List.any_eq_true.mpr ⟨u, hu, hall u hu⟩⟩
      obtain ⟨none₁, any₁⟩ := both ts hs hnone₁
      obtain ⟨none₂, any₂⟩ := both us hs' hnone₂
      exact Step.same (.nones (none₁.trans none₂.symm) ⟨hlen₁, any₁⟩ ⟨hlen₂, any₂⟩)
    · rw [hs.typeNormal_of_forall hlen₁ hnone₁, typeNormal_eq_of_same same₂ hs'] at he
      exact absurd he.symm (sound₂.ne_of_plain hplain₂)
  · rcases hs'.exists_plain with ⟨hlen₂, hnone₂⟩ | ⟨ws, same₂, sound₂, hplain₂⟩
    · rw [hs'.typeNormal_of_forall hlen₂ hnone₂, typeNormal_eq_of_same same₁ hs] at he
      exact absurd he (sound₁.ne_of_plain hplain₁)
    · have whole (as : List Term) (hsound : IsSound as) :
          ∀ a ∈ as.map Term.normal, Balanced 0 a ∧ Whole '|' a := by
        intro a ha
        obtain ⟨u, hu, rfl⟩ := List.mem_map.mp ha
        have normal := (hsound.members u hu).isNormal
        exact ⟨normal.settled.balanced, normal.whole⟩
      have first : typeNormal ts = Text.join "|" (vs.map Term.normal) := by
        rw [typeNormal_eq_of_same same₁ hs, sound₁.typeNormal_of_plain hplain₁]
      have second : typeNormal us = Text.join "|" (ws.map Term.normal) := by
        rw [typeNormal_eq_of_same same₂ hs', sound₂.typeNormal_of_plain hplain₂]
      have parts : vs.map Term.normal = ws.map Term.normal :=
        join_inj (by simpa using sound₁.ne_nil) (by simpa using sound₂.ne_nil) (whole vs sound₁)
          (whole ws sound₂) (first.symm.trans (he.trans second))
      have members : List.Forall₂ Replaces vs ws := by
        refine forall₂_of_map_eq (fun u hu v hv same => ?_) parts
        refine replaces_of_normal_eq (sound₁.members u hu) (sound₂.members v hv) same
          fun as bs hshort ha hb hab => ih _ ?_ ha hb hab rfl
        have member : u.normal.length ≤ (typeNormal ts).length := by
          rw [first]
          exact length_le_join (List.mem_map_of_mem hu)
        omega
      exact same₁.trans ((same_of_forall₂ members []).trans same₂.symm)

/-- The normal form is a canonical one. It is its own normal form, and two types, with whatever
blanks they are written, have the same normal form just if one can be rewritten into the other. -/
theorem normal_canonical {s t : Text} (hs : IsSound ts) (hs' : IsSound us)
    (ht : compact s = typeText ts) (ht' : compact t = typeText us) :
    normal (normal s) = normal s ∧ (normal s = normal t ↔ Same ts us) := by
  have first : normal s = typeNormal ts := by rw [normal_eq, ht, typeNormal]
  have second : normal t = typeNormal us := by rw [normal_eq, ht', typeNormal]
  constructor
  · rw [first, normal_eq, compact_eq_self hs.settled.blankless, hs.settled.normal]
  · rw [first, second]
    exact ⟨same_of_typeNormal_eq hs hs', fun h => typeNormal_eq_of_same h hs⟩

/-- A list of anything or none, and the option of a bare list beside a word with a bar in it. -/
theorem normal_canonical_list :
    IsSound [.apply "array" [[.word "any"]], .word "f(a|b)", .word "none"] ∧
      IsSound [.apply "option" [[.word "array", .word "f(a|b)"]]] ∧
      compact "array< any > | f(a | b) | none" =
        typeText [.apply "array" [[.word "any"]], .word "f(a|b)", .word "none"] ∧
      compact "option<array|f(a|b)>" =
        typeText [.apply "option" [[.word "array", .word "f(a|b)"]]] ∧
      normal (normal "array< any > | f(a | b) | none") = normal "array< any > | f(a | b) | none" ∧
      (normal "array< any > | f(a | b) | none" = normal "option<array|f(a|b)>" ↔
        Same [.apply "array" [[.word "any"]], .word "f(a|b)", .word "none"]
          [.apply "option" [[.word "array", .word "f(a|b)"]]]) := by
  have list : Term.IsSound (.apply "array" [[.word "any"]]) := by
    rw [isSound_apply_iff (by decide) (by decide)]
    exact ⟨by simp, fun ts hts => List.mem_singleton.mp hts ▸ isSound_singleton (.word (by decide))⟩
  have first : IsSound [.apply "array" [[.word "any"]], .word "f(a|b)", .word "none"] := by
    refine ⟨by simp, ?_⟩
    simp only [List.forall_mem_cons]
    exact ⟨list, .word (by decide), .word (by decide), by simp⟩
  have inner : IsSound [.word "array", .word "f(a|b)"] := by
    refine ⟨by simp, ?_⟩
    simp only [List.forall_mem_cons]
    exact ⟨.word (by decide), .word (by decide), by simp⟩
  have second : IsSound [.apply "option" [[.word "array", .word "f(a|b)"]]] := by
    apply isSound_singleton
    rw [isSound_apply_iff (by decide) (by decide)]
    exact ⟨by simp, fun ts hts => List.mem_singleton.mp hts ▸ inner⟩
  have written : compact "array< any > | f(a | b) | none" =
      typeText [.apply "array" [[.word "any"]], .word "f(a|b)", .word "none"] := by
    simp only [typeText, List.map, Term.text_apply, Term.text_word]
    decide
  have written' : compact "option<array|f(a|b)>" =
      typeText [.apply "option" [[.word "array", .word "f(a|b)"]]] := by
    simp only [typeText, List.map, Term.text_apply, Term.text_word]
    decide
  exact ⟨first, second, written, written', normal_canonical first second written written'⟩

end SchemaDrift.TypeExpr
