import SchemaDrift.Proofs.Model.Shape

namespace SchemaDrift

/-!
# Types of declarations

A declaration spells out what the normal form of a type leaves out: blanks, and the argument of an
array of anything. Its type has the normal form that it was made from.
-/

namespace TypeExpr

/-- The type without blanks. -/
def compact (type : Text) : Text := type.filter fun c => !Text.isBlank c

theorem normal_eq (type : Text) : normal type = normalUnion (compact type) := rfl

theorem compact_append (a b : Text) : compact (a ++ b) = compact a ++ compact b :=
  List.filter_append a b

theorem compact_eq_self {t : Text} (h : ∀ c ∈ t, Text.isBlank c = false) : compact t = t :=
  List.filter_eq_self.mpr fun c hc => by rw [h c hc]; rfl

theorem compact_cons_of_blank {c : Char} (h : Text.isBlank c = true) (t : Text) :
    compact (c :: t) = compact t := List.filter_cons_of_neg (by simp [h])

theorem compact_cons_of_not_blank {c : Char} (h : Text.isBlank c = false) (t : Text) :
    compact (c :: t) = c :: compact t := List.filter_cons_of_pos (by simp [h])

theorem bracket_of_isBlank {c : Char} (h : Text.isBlank c = true) : bracket c = 0 := by
  have other (d : Char) (hd : Text.isBlank d = false) : c ≠ d :=
    ne_of_apply_ne Text.isBlank (by simp [h, hd])
  rw [bracket, if_neg, if_neg]
  · simp [other '>' (by decide), other ')' (by decide), other ']' (by decide),
      other '\x7d' (by decide)]
  · simp [other '<' (by decide), other '(' (by decide), other '[' (by decide),
      other '\x7b' (by decide)]

theorem Balanced.compact {t : Text} {d : Int} (h : Balanced d t) : Balanced d (compact t) := by
  induction t generalizing d with
  | nil => exact h
  | cons c t ih =>
    cases hc : Text.isBlank c with
    | true =>
      have rest := ih h.2
      rw [bracket_of_isBlank hc, Int.add_zero] at rest
      rwa [compact_cons_of_blank hc]
    | false =>
      rw [compact_cons_of_not_blank hc]
      exact ⟨h.1, ih h.2⟩

theorem splitFrom_compact {sep : Char} {t : Text} {d : Int} (h : splitFrom sep d t = [t]) :
    splitFrom sep d (compact t) = [compact t] := by
  induction t generalizing d with
  | nil => exact h
  | cons c t ih =>
    obtain ⟨hne, hrest⟩ := splitFrom_tail h
    have rest := ih hrest
    cases hc : Text.isBlank c with
    | true =>
      rw [bracket_of_isBlank hc, Int.add_zero] at rest
      rwa [compact_cons_of_blank hc]
    | false =>
      rw [compact_cons_of_not_blank hc, splitFrom, if_neg hne, rest]
      rfl

theorem Whole.compact {sep : Char} {t : Text} (h : Whole sep t) : Whole sep (compact t) :=
  splitFrom_compact h

/-- The spaces around the separators are left out with the others. -/
theorem compact_join_spaced (parts : List Text) :
    compact (Text.join " | " parts) = compact (Text.join ['|'] parts) := by
  induction parts with
  | nil => rfl
  | cons p parts ih =>
    cases parts with
    | nil => simp
    | cons q parts =>
      have spaced : compact " | " = compact ['|'] := by decide
      simp only [Text.join_cons_cons, compact_append, ih, spaced]

/-- Whether a text is a spelling of a type that can be an argument. -/
structure Spells (text type : Text) : Prop where
  balanced : Balanced 0 (compact text)
  whole : Whole ',' (compact text)
  normal : normal text = type

theorem Settled.spells {t text : Text} (h : Settled t) (ht : compact text = t) :
    Spells text t where
  balanced := ht ▸ h.balanced
  whole := ht ▸ h.whole
  normal := by rw [normal_eq, ht, h.normal]

theorem isAtom_ofNat (n : Nat) : IsAtom (Text.ofNat n) := by
  intro c hc
  have hd : c.isDigit = true := Nat.isDigit_of_mem_toDigits (by decide) (by decide) hc
  have range : 48 ≤ c.toNat ∧ c.toNat ≤ 57 := by
    simpa [Char.isDigit, UInt32.le_iff_toNat_le] using hd
  have other (d : Char) (hd : d.toNat < 48 ∨ 57 < d.toNat) : c ≠ d := by
    rintro rfl
    omega
  refine ⟨?_, ?_, other '|' (by decide), other ',' (by decide)⟩
  · simp [Text.isBlank]
    omega
  · rw [bracket, if_neg, if_neg]
    · simp [other '>' (by decide), other ')' (by decide), other ']' (by decide),
        other '\x7d' (by decide)]
    · simp [other '<' (by decide), other '(' (by decide), other '[' (by decide),
        other '\x7b' (by decide)]

end TypeExpr

open TypeExpr

namespace Declaration

@[simp] theorem type_scalar (t : Text) (c : Clauses) : (of (.scalar t) c).type = t := rfl

@[simp] theorem type_custom (t : Text) (c : Clauses) : (of (.custom t) c).type = t := rfl

@[simp] theorem type_object (fields : List (Text × Declaration)) (c : Clauses) :
    (of (.object fields) c).type = "object" := rfl

@[simp] theorem type_option (inner : Declaration) (c : Clauses) :
    (of (.option inner) c).type = "option<" ++ inner.type ++ ">" := rfl

@[simp] theorem type_container (kind : Container) (element : Declaration) (max : Option Nat)
    (c : Clauses) :
    (of (.container kind element max) c).type = containerType kind element.type max := rfl

theorem type_record {tables : List Text} (h : tables ≠ []) (c : Clauses) :
    (of (.record tables) c).type = "record<" ++ Text.join " | " tables ++ ">" := by
  cases tables with
  | nil => exact absurd rfl h
  | cons => rfl

/-- The arguments of a container behind that for the elements. -/
def boundArgument (max : Option Nat) : List Text := (max.map Text.ofNat).toList

theorem isAtom_option : IsAtom "option" := by decide

theorem isAtom_keyword (kind : Container) : IsAtom kind.keyword := by cases kind <;> decide

theorem compact_containerType (kind : Container) (element : Text) (max : Option Nat) :
    compact (containerType kind element max) =
      application kind.keyword (compact element :: boundArgument max) := by
  have keyword : compact kind.keyword = kind.keyword :=
    compact_eq_self (isAtom_keyword kind).settled.blankless
  cases max with
  | none =>
    have opening : compact "<" = ['<'] := by decide
    have closing : compact ">" = ['>'] := by decide
    simp only [containerType, compact_append, keyword, opening, closing, application,
      boundArgument, Option.map_none, Option.toList_none, Text.join_singleton]
    simp
  | some n =>
    have opening : compact "<" = ['<'] := by decide
    have closing : compact ">" = ['>'] := by decide
    have comma : compact ", " = [','] := by decide
    have digits : compact (Text.ofNat n) = Text.ofNat n :=
      compact_eq_self (isAtom_ofNat n).settled.blankless
    simp only [containerType, compact_append, keyword, opening, closing, comma, digits,
      application, boundArgument, Option.map_some, Option.toList_some, Text.join_cons_cons,
      Text.join_singleton]
    simp

theorem compact_option (type : Text) :
    compact ("option<" ++ type ++ ">") = application "option" [compact type] := by
  have opening : compact "option<" = "option<" := by decide
  have closing : compact ">" = ['>'] := by decide
  simp only [compact_append, opening, closing, application, Text.join_singleton]
  simp

/-- The arguments of a container are whole. -/
theorem whole_arguments {element : Text} (hb : Balanced 0 element) (hw : Whole ',' element)
    (max : Option Nat) : ∀ a ∈ element :: boundArgument max, Balanced 0 a ∧ Whole ',' a := by
  intro a ha
  rcases List.mem_cons.mp ha with rfl | ha
  · exact ⟨hb, hw⟩
  · cases max with
    | none => cases ha
    | some n =>
      rw [List.mem_singleton.mp ha]
      exact ⟨(isAtom_ofNat n).settled.balanced, (isAtom_ofNat n).settled.whole⟩

theorem map_normalUnion_boundArgument (max : Option Nat) :
    (boundArgument max).map normalUnion = boundArgument max := by
  cases max with
  | none => rfl
  | some n =>
    simp only [boundArgument, Option.map_some, Option.toList_some, List.map_singleton,
      (isAtom_ofNat n).settled.normal]

theorem applyName_any (kind : Container) : applyName kind.keyword ["any"] = kind.keyword := by
  rw [applyName, if_pos ⟨by cases kind <;> decide, rfl⟩]

theorem applyName_container (kind : Container) {max : Option Nat} {e : Text}
    (hany : max = none → e ≠ "any") :
    applyName kind.keyword (e :: boundArgument max) =
      application kind.keyword (e :: boundArgument max) := by
  rw [applyName, if_neg]
  · simp [application]
  · rintro ⟨-, he⟩
    obtain ⟨rfl, hmax⟩ := List.cons.inj he
    cases max with
    | none => exact hany rfl rfl
    | some n => cases hmax

theorem spells_containerType {text e : Text} (h : Spells text e) (kind : Container)
    (max : Option Nat) :
    Spells (containerType kind text max) (applyName kind.keyword (e :: boundArgument max)) where
  balanced := by
    rw [compact_containerType]
    exact balanced_application (isAtom_keyword kind).settled.balanced fun a ha =>
      (whole_arguments h.balanced h.whole max a ha).1
  whole := by
    rw [compact_containerType]
    exact whole_application (by decide) (isAtom_keyword kind).settled.balanced
      (isAtom_keyword kind).settled.whole fun a ha =>
        (whole_arguments h.balanced h.whole max a ha).1
  normal := by
    rw [normal_eq, compact_containerType, normalUnion_application (isAtom_keyword kind) (by simp)
      (whole_arguments h.balanced h.whole max), List.map_cons]
    rw [map_normalUnion_boundArgument, ← normal_eq, h.normal]

theorem spells_option {text t : Text} (h : Spells text t) :
    Spells ("option<" ++ text ++ ">") (application "option" [t]) where
  balanced := by
    rw [compact_option]
    exact balanced_application isAtom_option.settled.balanced (by simpa using h.balanced)
  whole := by
    rw [compact_option]
    exact whole_application (by decide) isAtom_option.settled.balanced
      isAtom_option.settled.whole (by simpa using h.balanced)
  normal := by
    rw [normal_eq, compact_option, normalUnion_application isAtom_option (by simp)
      (by simpa using ⟨h.balanced, h.whole⟩), List.map_singleton, ← normal_eq, h.normal]
    rfl

/-! ## Types that are read -/

/-- Whether the type is a normal form in which every option and every container is read as one. -/
inductive Readable : Text → Prop
  | option {t : Text} (h : Readable t) : Readable (application "option" [t])
  | bare (kind : Container) : Readable kind.keyword
  | container (kind : Container) (max : Option Nat) {e : Text} (h : Readable e)
      (hmax : ∀ n ∈ max, n < boundLimit) (hany : max = none → e ≠ "any") :
      Readable (application kind.keyword (e :: boundArgument max))
  | simple {t : Text} (h : Settled t) (ho : argumentOf? "option" t = none)
      (hc : container? t = none) : Readable t

namespace Readable

variable {t : Text}

theorem settled (h : Readable t) : Settled t := by
  induction h with
  | option _ ih =>
    exact settled_application isAtom_option (by simp) (by simpa using ih)
      (fun he => absurd he (by decide))
  | bare kind => exact (isAtom_keyword kind).settled
  | container kind max _ _ hany ih =>
    refine settled_application (isAtom_keyword kind) (by simp) ?_ ?_
    · intro a ha
      rcases List.mem_cons.mp ha with rfl | ha
      · exact ih
      · cases max with
        | none => cases ha
        | some n =>
          rw [List.mem_singleton.mp ha]
          exact (isAtom_ofNat n).settled
    · intro _ he
      obtain ⟨rfl, hmax⟩ := List.cons.inj he
      cases max with
      | none => exact hany rfl rfl
      | some n => cases hmax
  | simple h _ _ => exact h

theorem argumentOf?_option (t : Text) : argumentOf? "option" (application "option" [t]) = some t :=
  argumentOf?_eq_some_iff.mpr (by simp [application])

theorem elementOf?_option (t : Text) :
    elementOf? (application "option" [t]) = elementOf? t := by
  rw [elementOf?, unwrapOption_of_some (argumentOf?_option t), ← elementOf?]

theorem container?_container (kind : Container) (args : List Text) :
    container? (application kind.keyword args) = some (kind, some (Text.join "," args)) :=
  container?_eq_some_iff.mpr rfl

theorem splitTop_arguments {e : Text} (h : Readable e) (max : Option Nat) :
    splitTop ',' (Text.join "," (e :: boundArgument max)) = e :: boundArgument max :=
  splitTop_join (by simp) (whole_arguments h.settled.balanced h.settled.whole max)

theorem unwrapOption_container (kind : Container) (args : List Text) :
    unwrapOption (application kind.keyword args) = application kind.keyword args :=
  unwrapOption_of_none (argumentOf?_option_of_container? (container?_container kind args))

theorem elementOf?_container (kind : Container) {e : Text} (h : Readable e) (max : Option Nat) :
    elementOf? (application kind.keyword (e :: boundArgument max)) = some e := by
  rw [elementOf?, unwrapOption_container, container?_container]
  exact congrArg List.head? (splitTop_arguments h max)

theorem unwrapOption_bare (kind : Container) : unwrapOption kind.keyword = kind.keyword :=
  unwrapOption_of_none (argumentOf?_option_of_container? (container?_keyword kind))

theorem elementOf?_bare (kind : Container) :
    elementOf? kind.keyword = some ("any" : Text) := by
  rw [elementOf?, unwrapOption_bare, container?_keyword]

/-- The bound of a readable container is read. -/
theorem hasBound (h : Readable t) : HasBound t := by
  induction h with
  | @option t _ ih =>
    rw [HasBound, unwrapOption_of_some (argumentOf?_option t)]
    exact ih
  | bare kind =>
    intro k args hc
    rw [unwrapOption_bare, container?_keyword] at hc
    cases hc
  | container kind max h hmax _ _ =>
    intro k args hc digits hd
    rw [unwrapOption_container, container?_container] at hc
    cases hc
    rw [splitTop_arguments h] at hd
    cases max with
    | none => cases hd
    | some n =>
      cases hd
      rw [Text.toNatBelow?_ofNat (hmax n rfl)]
      rfl
  | simple _ ho hc =>
    intro k args hc'
    rw [unwrapOption_of_none ho, hc] at hc'
    cases hc'

theorem spells_elementFor {inner : Inner} {e : Text} {d : Declaration}
    (he : Spells (plain (shapeOf {} e)).type e) (hinner : ∀ d ∈ inner.element, Spells d.type e)
    (hd : inner.elementFor e = some d) : Spells d.type e := by
  rcases Inner.elementFor_cases hd with hd | rfl
  · exact hinner d hd
  · exact he

theorem spells_simple (h : Settled t) (ho : argumentOf? "option" t = none)
    (hc : container? t = none) (inner : Inner) (c : Clauses) :
    Spells (of (shapeOf inner t) c).type t := by
  have own : Spells t t := h.spells (compact_eq_self h.blankless)
  by_cases hobj : t = "object"
  · rw [hobj, shapeOf_object, type_object, ← hobj]
    exact own
  rw [shapeOf_simple inner ho hobj hc]
  by_cases hs : scalars.contains t = true
  · rw [if_pos hs, type_scalar]
    exact own
  rw [if_neg hs]
  cases hr : argumentOf? "record" t with
  | none => exact own
  | some tables =>
    refine h.spells ?_
    have form : t = "record" ++ '<' :: (tables ++ ['>']) := argumentOf?_eq_some_iff.mp hr
    have inside : compact tables = tables :=
      compact_eq_self fun c hc => h.blankless c (by rw [form]; simp [hc])
    have opening : compact "record<" = "record<" := by decide
    have closing : compact ">" = ['>'] := by decide
    change compact (of (.record (splitTop '|' tables)) c).type = t
    have parts : splitTop '|' tables ≠ [] := splitFrom_ne_nil '|' 0 tables
    rw [type_record parts, compact_append, compact_append, opening,
      closing, compact_join_spaced, join_splitTop, inside, form]
    simp

/-- The type of the shape of a readable type spells it, if the elements in it have the type that it
names. -/
theorem spells_shapeOf (h : Readable t) (inner : Inner) (c : Clauses)
    (hinner : ∀ d ∈ inner.element, ∀ e ∈ elementOf? t, Spells d.type e) :
    Spells (of (shapeOf inner t) c).type t := by
  induction h generalizing inner c with
  | @option t _ ih =>
    rw [shapeOf_option inner (argumentOf?_option t), type_option]
    rw [elementOf?_option] at hinner
    exact spells_option (ih inner {} hinner)
  | bare kind =>
    have atom := (isAtom_keyword kind).settled
    have any : Settled "any" := IsAtom.settled (by decide)
    rw [shapeOf_bare]
    cases hd : inner.elementFor "any" with
    | none => exact atom.spells (compact_eq_self atom.blankless)
    | some d =>
      have elements : Spells d.type "any" := by
        refine spells_elementFor ?_ (fun d hd => hinner d hd _ (elementOf?_bare kind)) hd
        rw [shapeOf_any]
        exact any.spells (compact_eq_self any.blankless)
      have outer := spells_containerType elements kind none
      rwa [boundArgument, Option.map_none, Option.toList_none, applyName_any] at outer
  | @container kind max e h hmax hany ih =>
    have full := (Readable.container kind max h hmax hany).settled
    rw [shapeOf_container inner (container?_container kind _), splitTop_arguments h,
      List.head?_cons, Option.getD_some, List.tail_cons]
    cases hd : inner.elementFor e with
    | none => exact full.spells (compact_eq_self full.blankless)
    | some d =>
      have elements : Spells d.type e :=
        spells_elementFor (ih {} {} (by simp))
          (fun d hd => hinner d hd _ (elementOf?_container kind h max)) hd
      have outer := spells_containerType elements kind max
      have bound : containerShape? kind d (boundArgument max) = some (.container kind d max) := by
        cases max with
        | none => rfl
        | some n => simp [boundArgument, containerShape?, Text.toNatBelow?_ofNat (hmax n rfl)]
      rw [applyName_container kind hany] at outer
      simpa only [bound, Option.getD_some, type_container] using outer
  | simple hs ho hc => exact spells_simple hs ho hc inner c

end Readable

end Declaration

end SchemaDrift
