import SchemaDrift.Proofs.Source.Listing

namespace SchemaDrift

open Declaration TypeExpr

/-!
# The table of a generated source

The definitions that a generated source lists are read as one table. This table does not differ from
the one that the source was generated from.
-/

/-- Whether the code can declare the table. In its types an option has as many arguments as `arity`
allows. -/
structure Table.Declarable (arity : Nat → Prop) (t : Table) : Prop where
  paths : ∀ f ∈ t.fields, IsPath f.name
  distinct : (t.fields.map Field.path).Nodup
  around : ∀ f ∈ t.fields, f.isWildcard = true → ∃ p ∈ t.fields, Path.parent? f.name = some p.path
  types : ∀ f ∈ t.fields, IsType arity (compact f.type)
  view : t.kind = .view ↔ t.viewQuery.isSome = true
  managed : ∀ i ∈ t.indexes, i.isDetectionOnly = false
  columns : ∀ i ∈ t.indexes, i.columns ≠ []
  functions : (t.indexes.map fun i => Source.functionOf i.name).Nodup

namespace Source

/-- Whether the source of a table lists definitions that are read, without a warning, as one table
that does not differ from it. -/
def Regains (t : Table) : Prop :=
  ∃ rs other, definitions? (file t) = some rs ∧
    Registration.read rs = { schema := ⟨[other]⟩, warnings := [] } ∧
    (∀ d, t.compare other d = []) ∧ Difference.ofTables t other = []

/-- The source of a table gives the table back. -/
theorem regains {t : Table} (h : t.Declarable (· = 1)) (hname : IsLine t.name) : Regains t := by
  have foldable : t.Foldable :=
    ⟨h.paths, h.distinct, h.around, fun f hf => (h.types f hf).hasForm.readable⟩
  have names : (t.indexes.map (·.name)).Nodup := by
    refine List.Nodup.of_map functionOf ?_
    rw [List.map_map]
    exact h.functions
  obtain ⟨other, read, -, mirrors⟩ :=
    Registration.exists_read_ofTable foldable h.view h.managed names
  exact ⟨_, other, definitions?_file hname h.view h.managed h.columns h.functions, read,
    fun d => mirrors.compare_eq_nil foldable names d, mirrors.differences_eq_nil foldable⟩

/-- A table with nested fields and elements. -/
def post : Table :=
  { name := "post"
    permissions := .all "FULL"
    fields := [
      { name := "meta.note", type := "string", value := some "\"a\" + b" },
      { name := "tags", type := "none | array<string, 10>", default := some "[]" },
      { name := "tags[*]", type := "string", assertion := some "$value != ''" },
      { name := "meta", type := "object", flexible := true }]
    indexes := [{ name := "by tags", columns := ["tags"], unique := true }] }

theorem declarable_post : post.Declarable (· = 1) where
  paths := by
    have note : IsPath "meta.note" :=
      ⟨"meta", [".note"], by decide, by simpa using IsStep.name (n := "note") (by decide), rfl⟩
    have tag : IsPath "tags[*]" := ⟨"tags", ["[*]"], by decide, by simpa using .element, rfl⟩
    have names : ∀ f ∈ post.fields, IsName f.name ∨ f.name = "meta.note" ∨ f.name = "tags[*]" := by
      decide
    intro f hf
    rcases names f hf with h | h | h
    · exact h.isPath
    · exact h ▸ note
    · exact h ▸ tag
  distinct := by decide
  around := by decide
  types := by
    have string : IsType (· = 1) "string" := .atom (by decide)
    have tags : IsType (· = 1) (Text.join "|" ["none", application "array" ["string", "10"]]) := by
      refine .union (by decide) ?_ (by decide) (.inr ⟨_, rfl⟩)
      exact List.forall_mem_cons.mpr ⟨.atom (by decide), List.forall_mem_singleton.mpr
        (.container .array (some 10) (by decide) string)⟩
    have types : ∀ f ∈ post.fields, IsAtom (compact f.type) ∨
        compact f.type = Text.join "|" ["none", application "array" ["string", "10"]] := by decide
    intro f hf
    rcases types f hf with h | h
    · exact .atom h
    · exact h ▸ tags
  view := by decide
  managed := by decide
  columns := by decide
  functions := by decide

theorem regains_post : post.Declarable (· = 1) ∧ IsLine post.name ∧ Regains post :=
  ⟨declarable_post, by decide, regains declarable_post (by decide)⟩

/-- The elements of an option that has two arguments. -/
def elements : Field := { name := "f[*]", type := "x", assertion := some "$value" }

def pair : Table :=
  { name := "t", fields := [{ name := "f", type := "option<array<x, 5>, b<c>>" }, elements] }

/-- The type of the option in its normal form. -/
def pairType : Text := application "option" [application "array" ["x", "5"], application "b" ["c"]]

theorem unwrapOption_pairType : unwrapOption pairType = "array<x,5>,b<c>" := by
  have wrapped : argumentOf? "option" pairType = some "array<x,5>,b<c>" := by decide
  rw [unwrapOption_of_some wrapped, unwrapOption_of_none (by decide)]

theorem declarable_pair : pair.Declarable (fun _ => True) where
  paths := by
    have star : IsPath "f[*]" := ⟨"f", ["[*]"], by decide, by simpa using .element, rfl⟩
    have name : IsPath "f" := IsName.isPath (by decide)
    exact List.forall_mem_cons.mpr ⟨name, List.forall_mem_singleton.mpr star⟩
  distinct := by decide
  around := by decide
  types := by
    have atom (t : Text) (h : IsAtom t) : IsType (fun _ => True) t := .atom h
    have x : IsType (fun _ => True) "x" := .atom (by decide)
    have elements : IsType (fun _ => True) (application "array" ["x", "5"]) :=
      .container .array (some 5) (by decide) x
    have other : IsType (fun _ => True) (application "b" ["c"]) :=
      .apply (by decide) (by decide) (fun _ => trivial) (by decide)
        (List.forall_mem_singleton.mpr (.atom (by decide)))
    have option : IsType (fun _ => True) pairType :=
      .apply (by decide) (by decide) (fun _ => trivial) (by decide)
        (List.forall_mem_cons.mpr ⟨elements, List.forall_mem_singleton.mpr other⟩)
    exact List.forall_mem_cons.mpr ⟨option, List.forall_mem_singleton.mpr x⟩
  view := by decide
  managed := by decide
  columns := by decide
  functions := by decide

/-- The elements are not declared: the type of the option names them, but its bound is no number. -/
theorem path_of_mem_fields_pair {g : Field} (hg : g ∈ (Model.ofTable pair).table.fields) :
    g.path = "f" := by
  have normalPair : normal "option<array<x, 5>, b<c>>" = pairType := by
    have bound : Settled "5" := IsAtom.settled (by decide)
    have x : Settled "x" := IsAtom.settled (by decide)
    have c : Settled "c" := IsAtom.settled (by decide)
    have elements : Settled (application "array" ["x", "5"]) :=
      settled_application (by decide) (by decide)
        (List.forall_mem_cons.mpr ⟨x, List.forall_mem_singleton.mpr bound⟩) (by decide)
    have other : Settled (application "b" ["c"]) :=
      settled_application (by decide) (by decide) (List.forall_mem_singleton.mpr c) (by decide)
    have option : Settled pairType :=
      settled_application (by decide) (by decide)
        (List.forall_mem_cons.mpr ⟨elements, List.forall_mem_singleton.mpr other⟩) (by decide)
    exact option.normal
  have normalX : normal "x" = "x" := (IsAtom.settled (by decide)).normal
  have noBound : ¬ HasBound pairType := by
    intro h
    have found := h .array "x,5>,b<c" (by rw [unwrapOption_pairType]; decide) "5>,b<c" (by decide)
    exact absurd found (by decide)
  have element : elementOf? pairType = some ("x" : Text) := by
    rw [elementOf?, unwrapOption_pairType]
    decide
  obtain ⟨f, hf, hin⟩ := Model.mem_flatFields_ofTable_iff.mp
    ((Table.mem_foldl_addField hg).resolve_left (by simp))
  obtain ⟨hm, houter⟩ := List.mem_filter.mp hf
  rcases List.mem_cons.mp hm with rfl | hm
  · rw [flatten, ofField_eq, normalPair, inside_shapeOf_of_not_hasBound _ noBound] at hin
    rw [List.mem_singleton.mp hin]
    decide
  · have absorbed : pair.absorbs elements = true := by
      refine (Table.absorbs_iff (by decide)).mpr ⟨_, List.mem_cons_self, by decide, ?_⟩
      have types : elementOf? (normal "option<array<x, 5>, b<c>>") = some (normal "x") := by
        rw [normalPair, normalX, element]
      exact types
    rw [List.mem_singleton.mp hm, absorbed] at houter
    cases houter

/-- A table whose name has two lines. -/
def lines : Table := { name := "a\nb" }

theorem declarable_lines : lines.Declarable (· = 1) where
  paths := by simp [lines]
  distinct := by decide
  around := by decide
  types := by simp [lines]
  view := by decide
  managed := by decide
  columns := by decide
  functions := by decide

/-- Constraints of elements are lost where an option has two arguments, and a name on two lines
leaves its comment. -/
theorem not_regains : (pair.Declarable (fun _ => True) ∧ IsLine pair.name ∧ ¬ Regains pair) ∧
    lines.Declarable (· = 1) ∧ ¬ Regains lines := by
  have listed : definitions? (file pair) = some (Registration.ofTable pair) :=
    definitions?_file (by decide) (by decide) (by decide) (by decide) (by decide)
  have lost : (definitions? (file lines)).isNone = true := by decide +kernel
  refine ⟨⟨declarable_pair, by decide, ?_⟩, declarable_lines, ?_⟩
  · rintro ⟨rs, other, hrs, hread, hcompare, -⟩
    rw [listed] at hrs
    cases hrs
    have same : (Model.ofTable pair).table = other := by
      have tables := congrArg (fun r => r.schema.tables) hread
      exact (List.cons.inj tables).1
    have none : other.lastFieldAt? elements.path = none := by
      rw [Table.lastFieldAt?, List.find?_eq_none]
      intro g hg
      rw [path_of_mem_fields_pair (same ▸ List.mem_reverse.mp hg)]
      decide
    have changes : Change.ofTables pair other = [] := by
      simpa [Table.compare] using hcompare .pull
    have added := (Change.ofTables_nil_iff.mp changes).2.1 elements (by decide)
    rw [Change.ofSourceField, none] at added
    exact absurd added (by decide)
  · rintro ⟨rs, -, hrs, -⟩
    rw [hrs] at lost
    cases lost

end Source

end SchemaDrift
