import SchemaDrift.Proofs.Model.Flat
import SchemaDrift.Source.Builder

namespace SchemaDrift

/-!
# Fields written inside others

A field that is not declared on its own is written inside the builder of the field that absorbs it,
unless that has a bound that no number of 64 bits stands for. So the builder of a field holds those
of all fields that it absorbs, directly or through the fields between.
-/

open TypeExpr Declaration

theorem Path.normal_of_isWildcard {path parent : Text} (hw : isWildcard path = true)
    (hp : parent? path = some parent) : normal path = parent ++ ".*" := by
  have form : ∃ q, normal path = normal q ++ ['.', '*'] := by
    rcases isWildcard_iff.mp hw with ⟨q, rfl⟩ | ⟨q, rfl⟩
    · exact ⟨q, normal_dot q ['*']⟩
    · refine ⟨q, ?_⟩
      rw [normal_append (by decide) (by decide)]
      rfl
  obtain ⟨q, hq⟩ := form
  have parent := hp
  rw [parent?, hq, beforeLastDot_dot _ (by decide)] at parent
  rw [hq, Option.some.inj parent]
  rfl

namespace Table

variable {t : Table} {f g k : Field}

/-- Whether the builder of a field has a place for another one that it absorbs. -/
structure Takes (t : Table) (f g : Field) : Prop where
  field : f ∈ t.fields
  absorbed : g ∈ t.absorbed f
  bound : HasBound (normal f.type)

/-- Whether a field takes another one, directly or through fields between them. -/
inductive Encloses (t : Table) : Field → Field → Prop
  | here {f g : Field} (h : t.Takes f g) : Encloses t f g
  | through {f g k : Field} (h : t.Takes f g) (rest : Encloses t g k) : Encloses t f k

theorem wildcard_eq_of_mem_absorbed (hn : (t.fields.map Field.path).Nodup) (hg : g ∈ t.absorbed f)
    (hk : k ∈ t.absorbed f) (hgw : g.isWildcard = true) (hkw : k.isWildcard = true) : g = k := by
  have path (h : Field) (hh : h ∈ t.absorbed f) (hw : h.isWildcard = true) :
      h.path = f.path ++ ".*" :=
    Path.normal_of_isWildcard hw
      (isInside_iff.mp (Bool.and_eq_true_iff.mp (List.mem_filter.mp hh).2).1)
  exact List.inj_on_of_nodup_map hn (mem_of_mem_absorbed hg) (mem_of_mem_absorbed hk)
    ((path g hg hgw).trans (path k hk hkw).symm)

end Table

/-! ## Builders inside builders -/

namespace Source

variable {inner : Inner} {type : Text} {d : Declaration}

theorem shapeBuilder_infix_builder (indent : Text) (shape : Shape Declaration) (c : Clauses) :
    shapeBuilder indent shape <:+: builder indent (.of shape c) := by
  rw [builder]
  exact (List.prefix_append _ _).isInfix

theorem shapeBuilder_option (indent : Text) (d : Declaration) :
    shapeBuilder indent (.option d) = "Field::option(" ++ builder indent d ++ ")" := rfl

theorem shapeBuilder_container (indent : Text) (kind : Container) (d : Declaration)
    (max : Option Nat) :
    shapeBuilder indent (.container kind d max) = container kind (builder indent d) max := rfl

theorem shapeBuilder_object_cons (indent : Text) (f : Text × Declaration)
    (fields : List (Text × Declaration)) :
    shapeBuilder indent (.object (f :: fields)) =
      "Field::object(vec![\n" ++ entryLines (indent ++ "    ") (f :: fields) ++ indent ++ "])" :=
  rfl

theorem shapeBuilder_infix_unwrapOption (indent : Text) :
    shapeBuilder indent (shapeOf inner (unwrapOption type)) <:+:
      shapeBuilder indent (shapeOf inner type) := by
  induction type using unwrapOption.induct with
  | case1 type wrapped h ih =>
    rw [unwrapOption_of_some h, shapeOf_option inner h, shapeBuilder_option]
    exact (ih.trans (shapeBuilder_infix_builder indent _ {})).trans ⟨_, _, rfl⟩
  | case2 type h =>
    have bare := unwrapOption_of_none h
    exact bare.symm ▸ List.infix_rfl

/-- An object is written with its fields. -/
theorem builder_infix_of_object (hobj : unwrapOption type = "object") {name : Text}
    (h : (name, d) ∈ inner.children) (indent : Text) :
    builder (indent ++ "    ") d <:+: shapeBuilder indent (shapeOf inner type) := by
  refine .trans ?_ (shapeBuilder_infix_unwrapOption indent)
  rw [hobj, shapeOf_object]
  have entry : builder (indent ++ "    ") d <:+: entryLines (indent ++ "    ") inner.children := by
    rw [entryLines_eq_flatMap, List.flatMap_def]
    refine .trans ?_ (List.infix_of_mem_flatten (List.mem_map_of_mem h))
    refine .trans ?_ (List.prefix_append _ _).isInfix
    exact ⟨_, _, rfl⟩
  cases hc : inner.children with
  | nil =>
    rw [hc] at h
    cases h
  | cons field rest =>
    rw [hc] at entry
    rw [shapeBuilder_object_cons]
    refine (entry.trans ?_).trans (List.prefix_append _ _).isInfix
    exact (List.suffix_append _ _).isInfix.trans (List.prefix_append _ _).isInfix

theorem builder_infix_container (kind : Container) (element : Text) (max : Option Nat) :
    element <:+: container kind element max := by
  cases max with
  | none =>
    change element <:+: "Field::" ++ kind.keyword ++ "(" ++ element ++ ")"
    exact List.infix_append _ _ _
  | some max =>
    change element <:+: "Field::" ++ kind.keyword ++ "_max(" ++ element ++ ", " ++ _ ++ ")"
    rw [List.append_assoc, List.append_assoc]
    exact List.infix_append _ _ _

/-- A container is written with its element constraint. -/
theorem builder_infix_of_element {e : Text} (he : elementOf? type = some e) (hb : HasBound type)
    (h : inner.element = some d) (indent : Text) :
    builder indent d <:+: shapeBuilder indent (shapeOf inner type) := by
  refine .trans ?_ (shapeBuilder_infix_unwrapOption indent)
  have own (e : Text) : inner.elementFor e = some d := by rw [Inner.elementFor, h, Option.some_or]
  unfold elementOf? at he
  split at he
  · cases he
  · rename_i kind hc
    rw [eq_keyword_of_container? hc, shapeOf_bare, own, shapeBuilder_container]
    exact builder_infix_container kind _ none
  · rename_i kind args hc
    rw [shapeOf_container inner hc, own]
    cases hs : (splitTop ',' args).tail with
    | nil =>
      simp only [containerShape?, Option.getD_some]
      rw [shapeBuilder_container]
      exact builder_infix_container kind _ none
    | cons max rest =>
      obtain ⟨n, hn⟩ := Option.isSome_iff_exists.mp (hb kind args hc max (by rw [hs]; rfl))
      simp only [containerShape?, hn, Option.map_some, Option.getD_some]
      rw [shapeBuilder_container]
      exact builder_infix_container kind _ (some n)

variable {t : Table} {f g : Field}

/-- The builder of a field is written with the builder of each field that it takes. -/
theorem exists_builder_infix_of_takes (hn : (t.fields.map Field.path).Nodup) (h : t.Takes f g)
    (indent : Text) :
    ∃ inset, builder inset (ofField t g) <:+: builder indent (ofField t f) := by
  have names := ((Table.mem_absorbed_iff hn h.field).mp h.absorbed).2.2
  rw [ofField_eq t f]
  unfold Table.Names at names
  split at names
  · rename_i hw
    have element : (innerOf t f).element = some (ofField t g) := by
      obtain ⟨k, hk⟩ := Option.isSome_iff_exists.mp
        (List.find?_isSome.mpr ⟨g, h.absorbed, hw⟩ : ((t.absorbed f).find? (·.isWildcard)).isSome)
      have same : k = g := Table.wildcard_eq_of_mem_absorbed hn (List.mem_of_find?_eq_some hk)
        h.absorbed (by simpa using List.find?_some hk) hw
      rw [innerOf, hk, same, Option.map_some]
    exact ⟨indent, (builder_infix_of_element names h.bound element indent).trans
      (shapeBuilder_infix_builder _ _ _)⟩
  · rename_i hw
    have child : (Path.lastName g.name, ofField t g) ∈ (innerOf t f).children :=
      List.mem_map.mpr ⟨g, List.mem_filter.mpr ⟨h.absorbed, by simpa using hw⟩, rfl⟩
    exact ⟨_, (builder_infix_of_object names child indent).trans (shapeBuilder_infix_builder _ _ _)⟩

theorem exists_builder_infix (hn : (t.fields.map Field.path).Nodup) (h : t.Encloses f g)
    (indent : Text) :
    ∃ inset, builder inset (ofField t g) <:+: builder indent (ofField t f) := by
  induction h generalizing indent with
  | here h => exact exists_builder_infix_of_takes hn h indent
  | through h _ ih =>
    obtain ⟨inset, hinset⟩ := exists_builder_infix_of_takes hn h indent
    obtain ⟨deeper, hdeeper⟩ := ih inset
    exact ⟨deeper, hdeeper.trans hinset⟩

end Source

/-! ## Paths inside declarations -/

namespace Declaration

variable {t : Table} {f g : Field}

/-- What stands for the elements of a type has paths of stars. -/
theorem exists_stars_of_mem_inside_plain {type : Text} (h : Readable type) {path : Text} {x : Field}
    (hx : x ∈ (plain (shapeOf {} type)).inside path) :
    ∃ k, x.name = path ++ (List.replicate (k + 1) (".*" : Text)).flatten := by
  induction h generalizing path with
  | @option type _ ih =>
    rw [shapeOf_option {} (Readable.argumentOf?_option type), plain, inside] at hx
    exact ih hx
  | bare kind =>
    have inside : (plain (shapeOf {} kind.keyword)).inside path =
        (plain (shapeOf {} "any")).flatten (path ++ ".*") :=
      inside_shapeOf_element {} (Readable.elementOf?_bare kind) (Readable.bare kind).hasBound
        path {}
    rw [inside, flatten, inside_plain_simple (by decide) (by decide), List.mem_singleton] at hx
    exact ⟨0, by rw [hx]; simp [field]⟩
  | @container kind max e h hmax hany ih =>
    have inside : (plain (shapeOf {} (application kind.keyword (e :: boundArgument max)))).inside
        path = (plain (shapeOf {} e)).flatten (path ++ ".*") :=
      inside_shapeOf_element {} (Readable.elementOf?_container kind h max)
        (Readable.container kind max h hmax hany).hasBound path {}
    rw [inside] at hx
    rcases List.mem_cons.mp hx with rfl | hx
    · exact ⟨0, by simp [field]⟩
    · obtain ⟨k, hk⟩ := ih hx
      refine ⟨k + 1, ?_⟩
      rw [hk, List.replicate_succ (n := k + 1), List.flatten_cons, List.append_assoc]
  | simple _ ho hc =>
    rw [inside_plain_simple ho hc] at hx
    cases hx

/-- Below a path of stars stands a field at the path with one star. -/
theorem exists_at_star (ht : t.Foldable) {path : Text} {k : Nat} (hg : g ∈ t.fields)
    (hpath : g.path = path ++ (List.replicate (k + 1) (".*" : Text)).flatten) :
    ∃ p ∈ t.fields, p.path = path ++ ".*" := by
  induction k generalizing g with
  | zero => exact ⟨g, hg, by simpa using hpath⟩
  | succ k ih =>
    rw [List.replicate_succ', List.flatten_append, ← List.append_assoc, List.flatten_singleton]
      at hpath
    obtain ⟨p, hp, hp'⟩ := ht.exists_around hg hpath
    exact ih hp hp'

theorem normal_append_stars (path : Text) (k : Nat) :
    Path.normal (path ++ (List.replicate k (".*" : Text)).flatten) =
      Path.normal path ++ (List.replicate k (".*" : Text)).flatten := by
  induction k with
  | zero => simp
  | succ k ih =>
    rw [List.replicate_succ', List.flatten_append, List.flatten_singleton, ← List.append_assoc,
      ← List.append_assoc, normal_elements, ih]

/-- The declaration of a field has a field at the path of another one just if it encloses this
one. -/
theorem exists_mem_inside_iff (ht : t.Foldable) (hf : f ∈ t.fields) (hg : g ∈ t.fields)
    {name : Text} (hname : Path.normal name = f.path) :
    (∃ x ∈ (ofField t f).inside name, x.path = g.path) ↔ t.Encloses f g := by
  revert name
  revert hf
  refine fun hf => Table.absorbed_induction (t := t) (P := fun f => ∀ name,
    Path.normal name = f.path →
      ((∃ x ∈ (ofField t f).inside name, x.path = g.path) ↔ t.Encloses f g)) ?_ f hf _
  intro f hf ih name hname
  have hb := (ht.readable f hf).hasBound
  have takes {h : Field} (hh : h ∈ t.absorbed f) : t.Takes f h := ⟨hf, hh, hb⟩
  have own {h : Field} (hh : h ∈ t.absorbed f) :
      Path.normal (name ++ Path.step h.name) = h.path := by
    obtain ⟨hm, hparent, -⟩ := (Table.mem_absorbed_iff ht.distinct hf).mp hh
    exact ht.normal_append_step hm hparent hname
  constructor
  · rintro ⟨x, hx, hpath⟩
    rcases (mem_inside_ofField_iff ht.distinct ht.paths hf hb).mp hx with
      ⟨h, hh, hx⟩ | ⟨e, he, hnone, hstray, hx⟩
    · rcases List.mem_cons.mp hx with rfl | hx
      · have same : h = g := List.inj_on_of_nodup_map ht.distinct (Table.mem_of_mem_absorbed hh) hg
          ((own hh).symm.trans hpath)
        exact .here (same ▸ takes hh)
      · exact .through (takes hh) ((ih h hh _ (own hh)).mp ⟨x, hx, hpath⟩)
    · -- An element constraint at a path that the type implies would be absorbed or stray.
      have stars : ∃ k, x.name = name ++ (List.replicate (k + 1) (".*" : Text)).flatten := by
        rcases List.mem_cons.mp hx with rfl | hx
        · exact ⟨0, by simp [field]⟩
        · obtain ⟨k, hk⟩ := exists_stars_of_mem_inside_plain
            (readable_element (ht.readable f hf) he) hx
          refine ⟨k + 1, ?_⟩
          rw [hk, List.replicate_succ (n := k + 1), List.flatten_cons, List.append_assoc]
      obtain ⟨k, hk⟩ := stars
      have path : g.path = f.path ++ (List.replicate (k + 1) (".*" : Text)).flatten := by
        rw [← hpath, Field.path, hk, normal_append_stars, hname]
      obtain ⟨p, hp, hp'⟩ := exists_at_star ht hg path
      exact absurd hp' ((implied_element ht hf he hnone hstray).path_ne ht p hp)
  · intro h
    cases h with
    | here h =>
      exact ⟨_, (mem_inside_ofField_iff ht.distinct ht.paths hf hb).mpr
        (.inl ⟨g, h.absorbed, List.mem_cons_self⟩), own h.absorbed⟩
    | @through _ h _ hh rest =>
      obtain ⟨x, hx, hpath⟩ := (ih h hh.absorbed _ (own hh.absorbed)).mpr rest
      exact ⟨x, (mem_inside_ofField_iff ht.distinct ht.paths hf hb).mpr
        (.inl ⟨h, hh.absorbed, List.mem_cons_of_mem _ hx⟩), hpath⟩

end Declaration

end SchemaDrift
