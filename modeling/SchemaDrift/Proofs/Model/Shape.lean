import SchemaDrift.Proofs.Schema.TypeForms

namespace SchemaDrift

/-!
# Shapes of types

The shape of a type has elements just where the type names elements, and fields just where it is an
object. What is declared inside it appears there, whatever the type is.
-/

namespace TypeExpr

variable {type inner : Text}

theorem unwrapOption_of_some (h : argumentOf? "option" type = some inner) :
    unwrapOption type = unwrapOption inner := by
  rw [unwrapOption]
  split
  · rename_i other he
    rw [h] at he
    cases he
    rfl
  · rename_i he
    rw [h] at he
    cases he

theorem unwrapOption_of_none (h : argumentOf? "option" type = none) : unwrapOption type = type := by
  rw [unwrapOption]
  split
  · rename_i he
    rw [h] at he
    cases he
  · rfl

theorem argumentOf?_eq_some_iff {name type args : Text} :
    argumentOf? name type = some args ↔ type = name ++ '<' :: (args ++ ['>']) := by
  rw [argumentOf?, Option.bind_eq_some_iff]
  constructor
  · rintro ⟨rest, hrest, hargs⟩
    rw [Text.stripStart_eq_some_iff.mp hrest, Text.stripEnd_eq_some_iff.mp hargs]
    simp
  · rintro rfl
    exact ⟨args ++ ['>'], Text.stripStart_eq_some_iff.mpr (by simp),
      Text.stripEnd_eq_some_iff.mpr rfl⟩

theorem argumentOf?_unwrapOption (type : Text) :
    argumentOf? "option" (unwrapOption type) = none := by
  induction type using unwrapOption.induct with
  | case1 type inner h ih => rw [unwrapOption_of_some h, ih]
  | case2 type h => rw [unwrapOption_of_none h, h]

end TypeExpr

namespace Declaration

open TypeExpr

/-- The normal type of the elements of a normal form, if it is that of an array or a set. -/
def elementOf? (type : Text) : Option Text :=
  match container? (unwrapOption type) with
  | none => none
  | some (_, none) => some "any"
  | some (_, some args) => (splitTop ',' args).head?

/-- The arguments of a type of one kind of container. -/
def containerOf? (kind : Container) (type : Text) : Option (Container × Option Text) :=
  if type = kind.keyword then some (kind, none)
  else (argumentOf? kind.keyword type).map fun args => (kind, some args)

theorem container?_eq (type : Text) :
    container? type = (containerOf? .array type).or (containerOf? .set type) := by
  have all : container? type = Container.all.findSome? (containerOf? · type) := rfl
  rw [all, Container.all, List.findSome?_cons, List.findSome?_cons, List.findSome?_nil]
  cases containerOf? .array type with
  | some _ => rfl
  | none => cases containerOf? .set type <;> rfl

theorem container?_keyword (kind : Container) : container? kind.keyword = some (kind, none) := by
  cases kind <;> decide

/-- A type that begins like one kind of container is not of the other. -/
theorem containerOf?_of_ne {kind other : Container} (h : kind ≠ other) (rest : Text) :
    containerOf? other (kind.keyword ++ rest) = none := by
  have start : (kind.keyword ++ rest).head? ≠ other.keyword.head? := by
    cases kind <;> cases other <;> simp [Container.keyword] at h ⊢
  rw [containerOf?, if_neg fun he => start (congrArg List.head? he), Option.map_eq_none_iff,
    Option.eq_none_iff_forall_ne_some]
  intro args ha
  rw [argumentOf?_eq_some_iff.mp ha] at start
  cases other <;> exact start rfl

theorem container?_eq_some_iff {kind : Container} {type args : Text} :
    container? type = some (kind, some args) ↔ type = kind.keyword ++ '<' :: (args ++ ['>']) := by
  constructor
  · intro h
    obtain ⟨k, -, hk⟩ := List.exists_of_findSome?_eq_some h
    split at hk
    · cases hk
    · obtain ⟨a, ha, he⟩ := Option.map_eq_some_iff.mp hk
      cases he
      exact argumentOf?_eq_some_iff.mp ha
  · rintro rfl
    have own : containerOf? kind (kind.keyword ++ '<' :: (args ++ ['>'])) =
        some (kind, some args) := by
      rw [containerOf?, if_neg (by simp), argumentOf?_eq_some_iff.mpr rfl]
      rfl
    rw [container?_eq]
    cases kind with
    | array => rw [own, Option.some_or]
    | set => rw [containerOf?_of_ne (by decide), own, Option.none_or]

theorem eq_keyword_of_container? {type : Text} {kind : Container}
    (h : container? type = some (kind, none)) : type = kind.keyword := by
  obtain ⟨k, -, hk⟩ := List.exists_of_findSome?_eq_some h
  split at hk
  · rename_i he
    cases hk
    exact he
  · obtain ⟨a, -, he⟩ := Option.map_eq_some_iff.mp hk
    cases he

/-- The elements of a type are those of its normal form. -/
theorem element?_eq (type : Text) : TypeExpr.element? type = elementOf? (normal type) := by
  simp only [TypeExpr.element?, elementOf?]
  generalize unwrapOption (normal type) = base
  cases hc : container? base with
  | none =>
    have name (kind : Container) : base ≠ kind.keyword := by
      rintro rfl
      rw [container?_keyword] at hc
      cases hc
    have names : ¬ (base = "array" ∨ base = "set") := not_or.mpr ⟨name .array, name .set⟩
    rw [if_neg names, Option.eq_none_iff_forall_ne_some]
    intro e he
    obtain ⟨rest, hrest, args, hargs, -⟩ := by
      simpa only [Option.bind_eq_bind, Option.bind_eq_some_iff] using he
    have form : base = "array<" ++ rest ∨ base = "set<" ++ rest := by
      rcases Option.or_eq_some_iff.mp hrest with h | ⟨-, h⟩
      · exact .inl (Text.stripStart_eq_some_iff.mp h)
      · exact .inr (Text.stripStart_eq_some_iff.mp h)
    rw [Text.stripEnd_eq_some_iff.mp hargs] at form
    rcases form with form | form
    · have found : container? base = some (.array, some args) := container?_eq_some_iff.mpr form
      rw [hc] at found
      cases found
    · have found : container? base = some (.set, some args) := container?_eq_some_iff.mpr form
      rw [hc] at found
      cases found
  | some found =>
    obtain ⟨kind, args⟩ := found
    cases args with
    | none =>
      rw [eq_keyword_of_container? hc]
      cases kind <;> rfl
    | some args =>
      rw [container?_eq_some_iff.mp hc]
      have close : Text.stripEnd ">" (args ++ ['>']) = some args :=
        Text.stripEnd_eq_some_iff.mpr rfl
      cases kind with
      | array =>
        rw [if_neg (by simp [Container.keyword])]
        change (Text.stripEnd ">" (args ++ ['>'])).bind _ = _
        rw [close]
        rfl
      | set =>
        rw [if_neg (by simp [Container.keyword])]
        change (Text.stripEnd ">" (args ++ ['>'])).bind _ = _
        rw [close]
        rfl

/-! ## Shapes -/

section Shape

variable {type : Text} (inner : Inner)

/-- What stands for the elements of a container: their own declaration, or that of their type if no
element constraint stands outside. -/
def Inner.elementFor (e : Text) : Option Declaration :=
  inner.element.or (if inner.stray then none else some (plain (shapeOf {} e)))

variable {inner} in
theorem Inner.elementFor_cases {e : Text} {d : Declaration} (h : inner.elementFor e = some d) :
    d ∈ inner.element ∨ d = plain (shapeOf {} e) := by
  rcases Option.or_eq_some_iff.mp h with h | ⟨-, h⟩
  · exact .inl h
  · split at h
    · cases h
    · exact .inr (Option.some.inj h).symm

/-- Whether the bound of a container is a number of 64 bits, if there is one. -/
def HasBound (type : Text) : Prop :=
  ∀ kind args, container? (unwrapOption type) = some (kind, some args) →
    ∀ max ∈ (splitTop ',' args).tail.head?, (Text.toNatBelow? boundLimit max).isSome = true

theorem shapeOf_option {wrapped : Text} (h : argumentOf? "option" type = some wrapped) :
    shapeOf inner type = .option (plain (shapeOf inner wrapped)) := by
  rw [shapeOf]
  split
  · rename_i he
    rw [h] at he
    cases he
    rfl
  · rename_i he
    rw [h] at he
    cases he

theorem shapeOf_object : shapeOf inner "object" = .object inner.children := by
  rw [shapeOf]
  split
  · rename_i he
    rw [show argumentOf? "option" "object" = none by decide] at he
    cases he
  · rfl

theorem argumentOf?_option_of_container? {found : Container × Option Text}
    (h : container? type = some found) : argumentOf? "option" type = none := by
  have start : type.head? ≠ some 'o' := by
    obtain ⟨kind, args⟩ := found
    cases args with
    | none =>
      rw [eq_keyword_of_container? h]
      cases kind <;> decide
    | some args =>
      rw [container?_eq_some_iff.mp h]
      cases kind <;> simp [Container.keyword]
  rw [Option.eq_none_iff_forall_ne_some]
  intro args ha
  rw [argumentOf?_eq_some_iff.mp ha] at start
  exact start rfl

theorem shapeOf_any : shapeOf inner "any" = .scalar "any" := by
  rw [shapeOf]
  split
  · rename_i he
    rw [show argumentOf? "option" "any" = none by decide] at he
    cases he
  · split
    · rename_i he
      exact absurd he (by decide)
    · split
      · rename_i he
        rw [show container? "any" = none by decide] at he
        cases he
      · rename_i he
        rw [show container? "any" = none by decide] at he
        cases he
      · rfl

theorem shapeOf_bare (kind : Container) :
    shapeOf inner kind.keyword =
      match inner.elementFor "any" with
      | none => .custom kind.keyword
      | some element => .container kind element none := by
  have hc := container?_keyword kind
  rw [shapeOf]
  split
  · rename_i he
    rw [argumentOf?_option_of_container? hc] at he
    cases he
  · rw [if_neg (by cases kind <;> decide)]
    split
    · rename_i he
      rw [hc] at he
      cases he
      simp only [Inner.elementFor, shapeOf_any]
      cases inner.element <;> cases inner.stray <;> rfl
    · rename_i he
      rw [hc] at he
      cases he
    · rename_i he
      rw [hc] at he
      cases he

theorem shapeOf_container {kind : Container} {args : Text}
    (h : container? type = some (kind, some args)) :
    shapeOf inner type =
      match inner.elementFor ((splitTop ',' args).head?.getD []) with
      | none => .custom type
      | some element =>
        (containerShape? kind element (splitTop ',' args).tail).getD (.custom type) := by
  have hobj : type ≠ "object" := by
    rintro rfl
    rw [show container? "object" = none by decide] at h
    cases h
  rw [shapeOf]
  split
  · rename_i he
    rw [argumentOf?_option_of_container? h] at he
    cases he
  · rw [if_neg hobj]
    split
    · rename_i he
      rw [h] at he
      cases he
    · rename_i he
      rw [h] at he
      cases he
      simp only [Inner.elementFor]
      cases inner.element <;> cases inner.stray <;> rfl
    · rename_i he
      rw [h] at he
      cases he

theorem shapeOf_simple (ho : argumentOf? "option" type = none) (hobj : type ≠ "object")
    (hc : container? type = none) :
    shapeOf inner type =
      if scalars.contains type then .scalar type
      else
        match argumentOf? "record" type with
        | some tables => .record (splitTop '|' tables)
        | none => .custom type := by
  rw [shapeOf]
  split
  · rename_i he
    rw [ho] at he
    cases he
  · rw [if_neg hobj]
    split
    · rename_i he
      rw [hc] at he
      cases he
    · rename_i he
      rw [hc] at he
      cases he
    · rfl

/-! ## What is inside -/

theorem inside_shapeOf_unwrapOption (path : Text) (c : Clauses) :
    (of (shapeOf inner type) c).inside path =
      (plain (shapeOf inner (unwrapOption type))).inside path := by
  induction type using unwrapOption.induct generalizing c with
  | case1 type wrapped h ih =>
    rw [unwrapOption_of_some h, shapeOf_option inner h, inside]
    exact ih {}
  | case2 type h =>
    rw [unwrapOption_of_none h]
    cases shapeOf inner type <;> simp [plain, inside]

theorem inside_shapeOf_object (h : unwrapOption type = "object") (path : Text) (c : Clauses) :
    (of (shapeOf inner type) c).inside path = insideAll path inner.children := by
  rw [inside_shapeOf_unwrapOption, h, shapeOf_object, plain, inside]

theorem inside_shapeOf_element {e : Text} (h : elementOf? type = some e) (hb : HasBound type)
    (path : Text) (c : Clauses) :
    (of (shapeOf inner type) c).inside path =
      ((inner.elementFor e).map (flatten (path ++ ".*"))).getD [] := by
  rw [inside_shapeOf_unwrapOption]
  unfold elementOf? at h
  split at h
  · cases h
  · rename_i kind hc
    cases h
    rw [eq_keyword_of_container? hc, shapeOf_bare]
    cases inner.elementFor "any" <;> simp [plain, inside, flatten]
  · rename_i kind args hc
    have bound := hb kind args hc
    rw [shapeOf_container inner hc, h, Option.getD_some]
    cases inner.elementFor e with
    | none => simp [plain, inside]
    | some d =>
      cases hs : (splitTop ',' args).tail with
      | nil => simp [plain, inside, flatten, containerShape?]
      | cons max rest =>
        obtain ⟨n, hn⟩ := Option.isSome_iff_exists.mp (bound max (by rw [hs]; rfl))
        simp [plain, inside, flatten, containerShape?, hn]

/-- A container whose bound is not a number has nothing inside. -/
theorem inside_shapeOf_of_not_hasBound (h : ¬ HasBound type) (path : Text) (c : Clauses) :
    (of (shapeOf inner type) c).inside path = [] := by
  rw [inside_shapeOf_unwrapOption]
  unfold HasBound at h
  push Not at h
  obtain ⟨kind, args, hc, max, hmax, hn⟩ := h
  rw [shapeOf_container inner hc]
  cases inner.elementFor ((splitTop ',' args).head?.getD []) with
  | none => rfl
  | some element =>
    obtain ⟨rest, htail⟩ := List.head?_eq_some_iff.mp hmax
    have none : Text.toNatBelow? boundLimit max = none := by simpa using hn
    have shape : containerShape? kind element (splitTop ',' args).tail = Option.none := by
      rw [htail, containerShape?, none]
      rfl
    simp only [shape]
    rfl

theorem container?_of_elementOf?_eq_none (h : elementOf? type = none) :
    container? (unwrapOption type) = none := by
  unfold elementOf? at h
  split at h
  · assumption
  · cases h
  · exact absurd (List.head?_eq_none_iff.mp h) (splitFrom_ne_nil ',' 0 _)

theorem inside_shapeOf_simple (h : elementOf? type = none) (hobj : unwrapOption type ≠ "object")
    (path : Text) (c : Clauses) : (of (shapeOf inner type) c).inside path = [] := by
  rw [inside_shapeOf_unwrapOption, shapeOf_simple inner (argumentOf?_unwrapOption type) hobj
    (container?_of_elementOf?_eq_none h)]
  split
  · rfl
  · split <;> rfl

/-- An object has no elements. -/
theorem elementOf?_of_object (h : unwrapOption type = "object") : elementOf? type = none := by
  rw [elementOf?, h, show container? "object" = none by decide]

end Shape

end Declaration

end SchemaDrift
