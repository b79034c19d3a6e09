import SchemaDrift.Proofs.Model.Shape
import SchemaDrift.Proofs.Schema.Put
import SchemaDrift.Proofs.Schema.Steps

namespace SchemaDrift

/-!
# Fields inside fields

A field is declared inside the one around it just where the table has that one and its type names
this field. What is declared inside a field is the declarations of the fields that it absorbs.
-/

open TypeExpr Declaration

namespace Table

variable {t : Table} {f g p : Field}

theorem fieldAt?_eq_some_iff (hn : (t.fields.map Field.path).Nodup) {path : Text} :
    t.fieldAt? path = some f ↔ f ∈ t.fields ∧ f.path = Path.normal path := by
  unfold fieldAt?
  constructor
  · intro h
    exact find?_key_eq_some h
  · rintro ⟨hm, he⟩
    rw [← he]
    exact find?_key_of_mem hn hm

theorem isInside_iff : isInside f p = true ↔ Path.parent? f.name = some p.path := beq_iff_eq

/-- Whether the type of a field names the field inside it. -/
def Names (p f : Field) : Prop :=
  if f.isWildcard then elementOf? (normal p.type) = some (normal f.type)
  else unwrapOption (normal p.type) = "object"

theorem absorbs_iff (hn : (t.fields.map Field.path).Nodup) :
    t.absorbs f = true ↔
      ∃ p ∈ t.fields, Path.parent? f.name = some p.path ∧ Names p f := by
  unfold absorbs
  constructor
  · intro h
    split at h
    · cases h
    · rename_i p hp
      obtain ⟨path, hpath, hp⟩ := Option.bind_eq_some_iff.mp hp
      obtain ⟨hm, he⟩ := (fieldAt?_eq_some_iff hn).mp hp
      refine ⟨p, hm, by rw [hpath, he, Path.normal_of_parent? hpath], ?_⟩
      unfold Names
      split at h
      · rename_i hw
        rw [if_pos hw, ← element?_eq, eq_of_beq h]
      · rename_i hw
        rw [if_neg hw]
        exact eq_of_beq h
  · rintro ⟨p, hm, hp, hnames⟩
    have hat : t.fieldAt? p.path = some p :=
      (fieldAt?_eq_some_iff hn).mpr ⟨hm, (Path.normal_of_parent? hp).symm⟩
    rw [hp, Option.bind_some, hat]
    simp only
    unfold Names at hnames
    split at hnames
    · rename_i hw
      rw [if_pos hw, element?_eq, hnames, beq_self_eq_true]
    · rename_i hw
      rw [if_neg hw]
      exact beq_iff_eq.mpr hnames

/-- What a field absorbs is the fields one step inside it that its type names. -/
theorem mem_absorbed_iff (hn : (t.fields.map Field.path).Nodup) (hp : p ∈ t.fields) :
    f ∈ t.absorbed p ↔ f ∈ t.fields ∧ Path.parent? f.name = some p.path ∧ Names p f := by
  unfold absorbed
  rw [List.mem_filter, Bool.and_eq_true, isInside_iff, absorbs_iff hn]
  constructor
  · rintro ⟨hm, hin, q, hq, hin', hnames⟩
    have same : q = p :=
      List.inj_on_of_nodup_map hn hq hp (Option.some.inj (hin'.symm.trans hin))
    exact ⟨hm, hin, same ▸ hnames⟩
  · rintro ⟨hm, hin, hnames⟩
    exact ⟨hm, hin, p, hp, hin, hnames⟩

theorem mem_of_mem_absorbed (h : f ∈ t.absorbed p) : f ∈ t.fields := (List.mem_filter.mp h).1

theorem length_path_lt_of_mem_absorbed (h : f ∈ t.absorbed p) : p.path.length < f.path.length :=
  length_path_lt_of_isInside (Bool.and_eq_true_iff.mp (List.mem_filter.mp h).2).1

/-- What holds of a field if it holds of all fields that it absorbs, holds of every field. -/
theorem absorbed_induction {P : Field → Prop}
    (step : ∀ f ∈ t.fields, (∀ g ∈ t.absorbed f, P g) → P f) : ∀ f ∈ t.fields, P f := by
  intro f hf
  induction hk : t.pathBound - f.path.length using Nat.strongRecOn generalizing f with
  | ind k ih =>
    refine step f hf fun g hg => ih _ ?_ g (mem_of_mem_absorbed hg) rfl
    have inside := length_path_lt_of_mem_absorbed hg
    have bounded := length_path_le_pathBound (mem_of_mem_absorbed hg)
    omega

/-- A field has at most one element constraint. -/
theorem absorbed_wildcard_unique (hn : (t.fields.map Field.path).Nodup)
    (paths : ∀ f ∈ t.fields, IsPath f.name) (hf : f ∈ t.absorbed p) (hg : g ∈ t.absorbed p)
    (hfw : f.isWildcard = true) (hgw : g.isWildcard = true) : f = g := by
  have path (h : Field) (hh : h ∈ t.absorbed p) (hw : h.isWildcard = true) :
      h.path = p.path ++ ['.', '*'] := by
    have inside := isInside_iff.mp (Bool.and_eq_true_iff.mp (List.mem_filter.mp hh).2).1
    have around := (paths h (mem_of_mem_absorbed hh)).normal_eq_of_parent? inside
    rwa [if_pos (show Path.isWildcard h.name = true from hw)] at around
  exact List.inj_on_of_nodup_map hn (mem_of_mem_absorbed hf) (mem_of_mem_absorbed hg)
    ((path f hf hfw).trans (path g hg hgw).symm)

end Table

namespace Declaration

variable {t : Table} {f g : Field}

/-- What is declared inside a field. -/
def innerOf (t : Table) (f : Field) : Inner where
  children := ((t.absorbed f).filter (!·.isWildcard)).map fun g =>
    (Path.lastName g.name, ofField t g)
  element := ((t.absorbed f).find? (·.isWildcard)).map (ofField t)
  stray := t.hasStray f

/-- What a field says besides its type. -/
def clausesOf (f : Field) : Clauses where
  flexible := f.flexible
  default := f.default
  value := f.value
  assertion := f.assertion
  readonly := f.readonly
  permissions := f.permissions

theorem ofField_eq (t : Table) (f : Field) :
    ofField t f = of (shapeOf (innerOf t f) (normal f.type)) (clausesOf f) := by
  rw [ofField]
  refine congrArg₂ of (congrArg (shapeOf · (normal f.type)) ?_) rfl
  simp [innerOf, List.filter_map, List.find?_map, Function.comp_def]

theorem mem_insideAll_iff {x : Field} {path : Text} {fields : List (Text × Declaration)} :
    x ∈ insideAll path fields ↔ ∃ f ∈ fields, x ∈ f.2.flatten (path ++ "." ++ f.1) := by
  induction fields with
  | nil => simp [insideAll]
  | cons f rest ih =>
    obtain ⟨name, d⟩ := f
    rw [insideAll, List.mem_append, ih]
    simp [flatten]

/-- The element constraint of a container is the one that it absorbs. -/
theorem innerOf_element_eq (hn : (t.fields.map Field.path).Nodup)
    (paths : ∀ f ∈ t.fields, IsPath f.name) (hg : g ∈ t.absorbed f) (hw : g.isWildcard = true) :
    (innerOf t f).element = some (ofField t g) := by
  have found : ((t.absorbed f).find? (·.isWildcard)).isSome :=
    List.find?_isSome.mpr ⟨g, hg, hw⟩
  obtain ⟨g', hg'⟩ := Option.isSome_iff_exists.mp found
  have same : g' = g := Table.absorbed_wildcard_unique hn paths (List.mem_of_find?_eq_some hg') hg
    (by simpa using List.find?_some hg') hw
  rw [innerOf, hg', same, Option.map_some]

theorem isWildcard_of_mem_absorbed (hn : (t.fields.map Field.path).Nodup) (hf : f ∈ t.fields)
    {e : Text} (he : elementOf? (normal f.type) = some e) (hg : g ∈ t.absorbed f) :
    g.isWildcard = true := by
  by_contra hw
  have object := ((Table.mem_absorbed_iff hn hf).mp hg).2.2
  rw [Table.Names, if_neg hw] at object
  rw [elementOf?_of_object object] at he
  cases he

theorem isObject_of_mem_absorbed (hn : (t.fields.map Field.path).Nodup) (hf : f ∈ t.fields)
    (he : elementOf? (normal f.type) = none) (hg : g ∈ t.absorbed f) :
    g.isWildcard = false ∧ unwrapOption (normal f.type) = "object" := by
  have names := ((Table.mem_absorbed_iff hn hf).mp hg).2.2
  unfold Table.Names at names
  split at names
  · rw [he] at names
    cases names
  · rename_i hw
    exact ⟨by simpa using hw, names⟩

theorem step_of_isWildcard (hw : g.isWildcard = true) : Path.step g.name = ['.', '*'] := if_pos hw

theorem step_of_not_isWildcard (hw : g.isWildcard = false) :
    Path.step g.name = '.' :: Path.lastName g.name := by
  have hw : ¬ Path.isWildcard g.name = true := by
    rw [show Path.isWildcard g.name = false from hw]
    decide
  exact if_neg hw

/-- A field with elements has those of the constraint that it absorbs, or else those that its type
names if no element constraint does. -/
theorem mem_inside_of_element (hn : (t.fields.map Field.path).Nodup)
    (paths : ∀ f ∈ t.fields, IsPath f.name) (hf : f ∈ t.fields) (hb : HasBound (normal f.type))
    {path e : Text} {x : Field} (he : elementOf? (normal f.type) = some e) :
    x ∈ (ofField t f).inside path ↔
      (∃ g ∈ t.absorbed f, x ∈ (ofField t g).flatten (path ++ Path.step g.name)) ∨
      t.absorbed f = [] ∧ t.hasStray f = false ∧
        x ∈ (plain (shapeOf {} e)).flatten (path ++ ".*") := by
  have all (g : Field) (hg : g ∈ t.absorbed f) := isWildcard_of_mem_absorbed hn hf he hg
  rw [ofField_eq, inside_shapeOf_element _ he hb, Inner.elementFor]
  cases ha : t.absorbed f with
  | nil =>
    have none : (innerOf t f).element = none := by rw [innerOf, ha]; rfl
    rw [none, Option.none_or]
    cases hs : t.hasStray f <;> simp [innerOf, hs]
  | cons g rest =>
    have hg : g ∈ t.absorbed f := by rw [ha]; exact List.mem_cons_self
    have one : ∀ g' ∈ g :: rest, g' = g := fun g' hg' =>
      Table.absorbed_wildcard_unique hn paths (ha ▸ hg') hg (all g' (ha ▸ hg')) (all g hg)
    rw [innerOf_element_eq hn paths hg (all g hg), Option.some_or, Option.map_some,
      Option.getD_some]
    constructor
    · intro hx
      exact .inl ⟨g, List.mem_cons_self, by rw [step_of_isWildcard (all g hg)]; exact hx⟩
    · rintro (⟨g', hg', hx⟩ | ⟨hnil, _⟩)
      · rw [one g' hg', step_of_isWildcard (all g hg)] at hx
        exact hx
      · cases hnil

/-- A field without elements has the fields that it absorbs inside, and then it is an object. -/
theorem mem_inside_of_no_element (hn : (t.fields.map Field.path).Nodup) (hf : f ∈ t.fields)
    {path : Text} {x : Field} (he : elementOf? (normal f.type) = none) :
    x ∈ (ofField t f).inside path ↔
      ∃ g ∈ t.absorbed f, x ∈ (ofField t g).flatten (path ++ Path.step g.name) := by
  rw [ofField_eq]
  by_cases hobj : unwrapOption (normal f.type) = "object"
  · rw [inside_shapeOf_object _ hobj, mem_insideAll_iff]
    constructor
    · rintro ⟨child, hchild, hx⟩
      obtain ⟨g, hg, rfl⟩ := List.mem_map.mp hchild
      obtain ⟨hg, hw⟩ := List.mem_filter.mp hg
      refine ⟨g, hg, ?_⟩
      rw [step_of_not_isWildcard (by simpa using hw)]
      simpa using hx
    · rintro ⟨g, hg, hx⟩
      have hw := (isObject_of_mem_absorbed hn hf he hg).1
      rw [step_of_not_isWildcard hw] at hx
      refine ⟨(Path.lastName g.name, ofField t g), List.mem_map.mpr ⟨g, ?_, rfl⟩, ?_⟩
      · exact List.mem_filter.mpr ⟨hg, by rw [hw]; rfl⟩
      · simpa using hx
  · rw [inside_shapeOf_simple _ he hobj]
    constructor
    · intro hx
      cases hx
    · rintro ⟨g, hg, -⟩
      exact absurd (isObject_of_mem_absorbed hn hf he hg).2 hobj

/-- The fields declared inside a field: those of the fields that it absorbs, and the elements that
its type names if no element constraint does. -/
theorem mem_inside_ofField_iff (hn : (t.fields.map Field.path).Nodup)
    (paths : ∀ f ∈ t.fields, IsPath f.name) (hf : f ∈ t.fields) (hb : HasBound (normal f.type))
    {path : Text} {x : Field} :
    x ∈ (ofField t f).inside path ↔
      (∃ g ∈ t.absorbed f, x ∈ (ofField t g).flatten (path ++ Path.step g.name)) ∨
      ∃ e, elementOf? (normal f.type) = some e ∧ t.absorbed f = [] ∧ t.hasStray f = false ∧
        x ∈ (plain (shapeOf {} e)).flatten (path ++ ".*") := by
  cases he : elementOf? (normal f.type) with
  | some e =>
    rw [mem_inside_of_element hn paths hf hb he]
    simp only [Option.some.injEq, exists_eq_left']
  | none =>
    rw [mem_inside_of_no_element hn hf he]
    simp

end Declaration

end SchemaDrift
