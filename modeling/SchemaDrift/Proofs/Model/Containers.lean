import SchemaDrift.Proofs.Model.Mirror
import SchemaDrift.Proofs.Plan.Agreement
import SchemaDrift.Proofs.Schema.Levels

namespace SchemaDrift

/-!
# Containers in models

A declaration knows its elements from its tree, and a comparison reads them off the text of the
type. Both agree, so that the element constraints which a model declares inside its containers say
nothing new to a comparison, unless they have expressions of their own.
-/

open TypeExpr

namespace TypeExpr

theorem spells_of_closed {t : Text} (hb : Balanced 0 t) (hw : Whole ',' t) : Spells t (normal t) :=
  ⟨hb.compact, hw.compact, rfl⟩

theorem Spells.self {t text : Text} (h : Spells text t) : Spells text (TypeExpr.normal text) := by
  rw [h.normal]
  exact h

/-- A type that is spelled as an argument can be one itself. -/
theorem Spells.closed {t text : Text} (h : Spells text t) : Balanced 0 t ∧ Whole ',' t := by
  rw [← h.normal, normal_eq]
  exact closed_normalUnion h.balanced h.whole

end TypeExpr

namespace Declaration

variable {d e c k : Declaration} {path p name : Text} {fields : List (Text × Declaration)}

/-! ## Types of declarations -/

/-- Whether the name has no brackets, bars and commas. -/
def IsPlainName (name : Text) : Prop := ∀ c ∈ name, bracket c = 0 ∧ c ≠ '|' ∧ c ≠ ','

instance (name : Text) : Decidable (IsPlainName name) :=
  inferInstanceAs (Decidable (∀ c ∈ name, bracket c = 0 ∧ c ≠ '|' ∧ c ≠ ','))

/-- Whether the custom types in the declaration close their brackets and have no comma outside of
them, and its scalars and records have plain names. -/
inductive IsProper : Declaration → Prop
  | scalar {type : Text} {c : Clauses} (h : IsPlainName type) : IsProper (of (.scalar type) c)
  | record {tables : List Text} {c : Clauses} (h : ∀ t ∈ tables, IsPlainName t) :
      IsProper (of (.record tables) c)
  | option {inner : Declaration} {c : Clauses} (h : IsProper inner) :
      IsProper (of (.option inner) c)
  | container {kind : Container} {element : Declaration} {max : Option Nat} {c : Clauses}
      (h : IsProper element) : IsProper (of (.container kind element max) c)
  | object {fields : List (Text × Declaration)} {c : Clauses} (h : ∀ f ∈ fields, IsProper f.2) :
      IsProper (of (.object fields) c)
  | custom {type : Text} {c : Clauses} (hb : Balanced 0 type) (hw : Whole ',' type) :
      IsProper (of (.custom type) c)

theorem IsPlainName.leads (h : IsPlainName name) : Leads 0 name 0 :=
  leads_of_plain (Int.le_refl 0) fun c hc => ⟨(h c hc).1, (h c hc).2.2⟩

theorem IsPlainName.spells (h : IsPlainName name) : Spells name (normal name) := by
  obtain ⟨hb, hw⟩ := leads_iff.mp h.leads
  exact spells_of_closed hb hw

theorem leads_record {tables : List Text} (h : ∀ t ∈ tables, IsPlainName t) :
    Leads 0 (Text.join " | " tables) 0 := by
  have separator : ∀ c ∈ (" | " : Text), bracket c = 0 ∧ c ≠ ',' := by decide
  refine leads_of_plain (Int.le_refl 0) fun c hc => ?_
  rcases Text.mem_join hc with hc | ⟨t, ht, hc⟩
  · exact separator c hc
  · exact ⟨(h t ht c hc).1, (h t ht c hc).2.2⟩

/-- The type of a proper declaration can be an argument. -/
theorem IsProper.spells (h : d.IsProper) : Spells d.type (normal d.type) := by
  induction h with
  | scalar h => exact h.spells
  | @record tables c h =>
    by_cases hne : tables = []
    · rw [hne]
      have name : IsPlainName "record" := by decide
      exact name.spells
    · have form : (of (.record tables) c).type = application "record" [Text.join " | " tables] := by
        rw [type_record hne]
        simp [application]
      have leads : Leads 0 (application "record" [Text.join " | " tables]) 0 := by
        refine (leads_application_iff (Int.le_refl 0)).mpr ⟨Int.le_refl 0, 0, by decide, ?_⟩
        rw [Text.join_singleton]
        exact (leads_record h).succ (Int.le_refl 0)
      obtain ⟨hb, hw⟩ := leads_iff.mp leads
      rw [form]
      exact spells_of_closed hb hw
  | option _ ih => exact (spells_option ih).self
  | @container kind element max _ _ ih => exact (spells_containerType ih kind max).self
  | object _ =>
    have name : IsPlainName "object" := by decide
    exact name.spells
  | custom hb hw => exact spells_of_closed hb hw

theorem elementOf?_applyName (kind : Container) {e : Text} (hb : Balanced 0 e) (hw : Whole ',' e)
    (max : Option Nat) : elementOf? (applyName kind.keyword (e :: boundArgument max)) = some e := by
  by_cases hany : max = none ∧ e = "any"
  · obtain ⟨rfl, rfl⟩ := hany
    rw [boundArgument, Option.map_none, Option.toList_none, applyName_any, Readable.elementOf?_bare]
  · rw [applyName_container kind fun hmax he => hany ⟨hmax, he⟩, elementOf?,
      Readable.unwrapOption_container, Readable.container?_container]
    have parts : splitTop ',' (Text.join "," (e :: boundArgument max)) = e :: boundArgument max :=
      splitTop_join (by simp) (whole_arguments hb hw max)
    exact congrArg List.head? parts

/-- The elements of a declaration have the type that is read off its own type. -/
theorem IsProper.element?_type (h : d.IsProper) (he : d.element? = some e) :
    TypeExpr.element? d.type = some (normal e.type) := by
  rw [element?_eq]
  induction h with
  | option h ih =>
    rw [type_option, (spells_option h.spells).normal, Readable.elementOf?_option]
    exact ih he
  | @container kind element max _ h _ =>
    obtain rfl : element = e := Option.some.inj he
    obtain ⟨hb, hw⟩ := h.spells.closed
    rw [type_container, (spells_containerType h.spells kind max).normal]
    exact elementOf?_applyName kind hb hw max
  | scalar _ => cases he
  | record _ => cases he
  | object _ => cases he
  | custom _ _ => cases he

/-- A declaration with fields has the type of an object. -/
theorem IsProper.isObject_type (h : d.IsProper) (hd : d.children? = some fields) :
    isObject d.type = true := by
  rw [isObject, beq_iff_eq]
  induction h with
  | option h ih =>
    rw [type_option, (spells_option h.spells).normal,
      unwrapOption_of_some (Readable.argumentOf?_option _)]
    exact ih hd
  | object _ =>
    have atom : IsAtom "object" := by decide
    rw [type_object, normal_eq, compact_eq_self atom.settled.blankless, atom.settled.normal]
    exact unwrapOption_of_none (by decide)
  | scalar _ => cases hd
  | record _ => cases hd
  | container _ => cases hd
  | custom _ _ => cases hd

theorem IsProper.of_element? (h : d.IsProper) (he : d.element? = some e) : e.IsProper := by
  induction h with
  | option _ ih => exact ih he
  | @container _ element _ _ h _ =>
    obtain rfl : element = e := Option.some.inj he
    exact h
  | scalar _ => cases he
  | record _ => cases he
  | object _ => cases he
  | custom _ _ => cases he

theorem IsProper.of_children? (h : d.IsProper) (hd : d.children? = some fields)
    (hk : (name, k) ∈ fields) : k.IsProper := by
  induction h with
  | option _ ih => exact ih hd
  | @object own _ h _ =>
    obtain rfl : own = fields := Option.some.inj hd
    exact h _ hk
  | scalar _ => cases hd
  | record _ => cases hd
  | container _ => cases hd
  | custom _ _ => cases hd

/-! ## Declarations inside declarations -/

/-- Whether a declaration, at the path `p`, is part of another one at its own path. -/
inductive Occurs : Text → Declaration → Text → Declaration → Prop
  | here {path : Text} {d : Declaration} : Occurs path d path d
  | element {path p : Text} {d e c : Declaration} (he : d.element? = some e)
      (h : Occurs (path ++ ".*") e p c) : Occurs path d p c
  | child {path p name : Text} {d k c : Declaration} {fields : List (Text × Declaration)}
      (hd : d.children? = some fields) (hk : (name, k) ∈ fields)
      (h : Occurs (path ++ "." ++ name) k p c) : Occurs path d p c

theorem inside_of_element? (he : d.element? = some e) (path : Text) :
    d.inside path = e.flatten (path ++ ".*") := by
  induction d using element?.induct with
  | case1 inner c ih =>
    rw [inside]
    exact ih he
  | case2 kind element max c =>
    obtain rfl : element = e := Option.some.inj he
    rw [inside, flatten]
  | case3 d hoption hcontainer =>
    rw [element?] at he
    · cases he
    · exact hoption
    · exact hcontainer

theorem inside_of_children? (hd : d.children? = some fields) (path : Text) :
    d.inside path = insideAll path fields := by
  induction d using children?.induct with
  | case1 inner c ih =>
    rw [inside]
    exact ih hd
  | case2 own c =>
    obtain rfl : own = fields := Option.some.inj hd
    rw [inside]
  | case3 d hoption hobject =>
    rw [children?] at hd
    · cases hd
    · exact hoption
    · exact hobject

/-- A declaration inside another one has a field among the flat fields of that. -/
theorem Occurs.field_mem (h : Occurs path d p c) : c.field p ∈ d.flatten path := by
  induction h with
  | here => exact List.mem_cons_self
  | element he _ ih =>
    rw [flatten, inside_of_element? he]
    exact List.mem_cons_of_mem _ ih
  | child hd hk _ ih =>
    rw [flatten, inside_of_children? hd]
    exact List.mem_cons_of_mem _ (mem_insideAll_iff.mpr ⟨_, hk, ih⟩)

theorem Occurs.isProper (h : Occurs path d p c) (hd : d.IsProper) : c.IsProper := by
  induction h with
  | here => exact hd
  | element he _ ih => exact ih (hd.of_element? he)
  | child hf hk _ ih => exact ih (hd.of_children? hf hk)

theorem Occurs.trans {q : Text} (h : Occurs path d p c) (h' : Occurs p c q k) :
    Occurs path d q k := by
  induction h with
  | here => exact h'
  | element he _ ih => exact .element he (ih h')
  | child hf hk _ ih => exact .child hf hk (ih h')

end Declaration

/-! ## Tables without implied constraints -/

namespace Table

variable {t : Table} {removed : Field → Bool}

/-- The table with some of its fields left out. -/
def without (t : Table) (removed : Field → Bool) : Table :=
  { t with fields := t.fields.filter (!removed ·) }

theorem Keyed.without (h : t.Keyed) (removed : Field → Bool) : (t.without removed).Keyed where
  paths := h.paths.sublist (List.filter_sublist.map Field.path)
  indexNames := h.indexNames

theorem Keyed.find?_path_of_mem (h : t.Keyed) {f : Field} (hf : f ∈ t.fields) :
    t.fields.find? (Field.path · == f.path) = some f := find?_key_of_mem h.paths hf

/-- A table does not differ from itself without fields that it implies. -/
theorem Keyed.compare_without (h : t.Keyed)
    (himp : ∀ f ∈ t.fields, removed f = true → t.implies f = true) (direction : Change.Direction) :
    t.compare (t.without removed) direction = [] ∧
      (t.without removed).compare t direction = [] := by
  have rest := h.without removed
  have kept {f : Field} (hf : f ∈ (t.without removed).fields) : f ∈ t.fields :=
    (List.mem_filter.mp hf).1
  have same {f g : Field} (hf : f ∈ t.fields) (hg : g ∈ t.fields) (hpath : g.path = f.path) :
      Change.ofField t.name f g = [] := by
    rw [List.inj_on_of_nodup_map h.paths hg hf hpath, Change.ofField_self]
  have found : ∀ f ∈ (t.without removed).fieldsBeside t, (t.without removed).implies f = true := by
    intro f hf
    obtain ⟨hf, hnone⟩ := mem_fieldsBeside.mp hf
    rw [h.find?_path_of_mem (kept hf)] at hnone
    cases hnone
  -- Only a field that was left out is missing.
  have implied : ∀ f ∈ t.fieldsBeside (t.without removed), t.implies f = true := by
    intro f hf
    obtain ⟨hf, hnone⟩ := mem_fieldsBeside.mp hf
    refine himp f hf ?_
    by_contra hkept
    have own : f ∈ (t.without removed).fields := List.mem_filter.mpr ⟨hf, by simp [hkept]⟩
    rw [rest.find?_path_of_mem own] at hnone
    cases hnone
  constructor
  · rw [Table.compare, List.map_eq_nil_iff, Change.ofTables_eq_nil_iff h rest]
    exact ⟨rfl, fun f hf g hg => same hf (kept hg), implied, found, fun _ => rfl⟩
  · rw [Table.compare, List.map_eq_nil_iff, Change.ofTables_eq_nil_iff rest h]
    exact ⟨rfl, fun f hf g hg => same (kept hf) hg, found, implied, fun _ => rfl⟩

end Table

namespace Model

variable {m : Model} {x : Field}

/-- Whether the field is the constraint of a container in the model on its elements, and has no
expressions of its own. -/
inductive Constrains (m : Model) : Field → Prop
  | element {name path : Text} {d c e : Declaration} (hd : (name, d) ∈ m.fields)
      (hc : Declaration.Occurs name d path c) (he : c.element? = some e)
      (hdefault : e.clauses.default = none) (hvalue : e.clauses.value = none)
      (hassertion : e.clauses.assertion = none) : Constrains m (e.field (path ++ ".*"))

theorem table_eq (hn : (m.flatFields.map Field.path).Nodup) :
    m.table.fields = m.flatFields ∧ m.table.indexes = [] := by
  have names : (m.flatFields.map (·.name)).Nodup := by
    rw [show Field.path = Path.normal ∘ Field.name from rfl, ← List.map_map] at hn
    exact hn.of_map
  rw [table, ← flatFields]
  rw [Table.foldl_addField (by simpa using names)]
  exact ⟨rfl, rfl⟩

theorem keyed_table (hn : (m.flatFields.map Field.path).Nodup) : m.table.Keyed := by
  obtain ⟨fields, indexes⟩ := table_eq hn
  exact ⟨by rwa [fields], by simp [indexes]⟩

theorem mem_flatFields_of_occurs {name path : Text} {d c : Declaration} (hd : (name, d) ∈ m.fields)
    (hc : Declaration.Occurs name d path c) : c.field path ∈ m.flatFields :=
  List.mem_flatMap.mpr ⟨_, hd, hc.field_mem⟩

theorem Constrains.mem_flatFields (h : m.Constrains x) : x ∈ m.flatFields := by
  obtain @⟨name, path, d, c, e, hd, hc, he, -, -, -⟩ := h
  exact mem_flatFields_of_occurs hd (hc.trans (.element he .here))

/-- The container around a constraint names its type. -/
theorem Constrains.implies (hm : ∀ f ∈ m.fields, f.2.IsProper)
    (hn : (m.flatFields.map Field.path).Nodup) (h : m.Constrains x) : m.table.implies x = true := by
  obtain @⟨name, path, d, c, e, hd, hc, he, hdefault, hvalue, hassertion⟩ := h
  obtain ⟨fields, -⟩ := table_eq hn
  have container : c.field path ∈ m.table.fields := by
    rw [fields]
    exact mem_flatFields_of_occurs hd hc
  have parent : Path.parent? (path ++ ".*") = some (c.field path).path := by
    rw [Path.parent?, Declaration.normal_elements]
    exact Path.beforeLastDot_dot _ (by decide)
  have wildcard : (e.field (path ++ ".*")).isWildcard = true :=
    Path.isWildcard_iff.mpr (.inl ⟨path, rfl⟩)
  exact (Table.implies_iff (keyed_table hn).paths).mpr ⟨wildcard, hdefault, hvalue, hassertion,
    c.field path, container, parent, (hc.isProper (hm _ hd)).element?_type he⟩

/-- What a declaration knows of its elements and fields is what its type says of them. So each
element constraint of a model that has no expressions is implied by its table, and a comparison of
the table with itself does not miss those of them that are left out on one side. -/
theorem constraints_implied (hm : ∀ f ∈ m.fields, f.2.IsProper)
    (hn : (m.flatFields.map Field.path).Nodup) :
    (∀ d : Declaration, d.IsProper →
      (∀ e, d.element? = some e → TypeExpr.element? d.type = some (normal e.type)) ∧
        ∀ fields, d.children? = some fields → isObject d.type = true) ∧
      (∀ x, m.Constrains x → x ∈ m.table.fields ∧ m.table.implies x = true) ∧
        ∀ removed : Field → Bool, (∀ x ∈ m.table.fields, removed x = true → m.Constrains x) →
          ∀ direction, m.table.compare (m.table.without removed) direction = [] ∧
            (m.table.without removed).compare m.table direction = [] := by
  refine ⟨fun d hd => ⟨fun e he => hd.element?_type he, fun fields hf => hd.isObject_type hf⟩,
    fun x hx => ⟨?_, hx.implies hm hn⟩, fun removed hremoved direction => ?_⟩
  · rw [(table_eq hn).1]
    exact hx.mem_flatFields
  · exact (keyed_table hn).compare_without
      (fun x hx hr => (hremoved x hx hr).implies hm hn) direction

/-- A model with an optional object in which bounded lists of sets of tags stand. -/
def tagged : Model where
  name := "post"
  fields :=
    [("info", .plain (.option (.plain (.object
      [("tags", .plain (.container .array
        (.plain (.container .set (.plain (.custom "'a' | none")) none)) (some 5)))]))))]

theorem isProper_tagged : ∀ f ∈ tagged.fields, f.2.IsProper := by
  have tags : (Declaration.plain (.custom "'a' | none")).IsProper := .custom (by decide) (by decide)
  simp only [tagged, List.forall_mem_singleton]
  refine .option (.object ?_)
  simp only [List.forall_mem_singleton]
  exact .container (.container tags)

theorem constraints_implied_tagged :
    (∀ f ∈ tagged.fields, f.2.IsProper) ∧ (tagged.flatFields.map Field.path).Nodup ∧
      (∃ x, tagged.Constrains x) ∧
      (∀ d : Declaration, d.IsProper →
        (∀ e, d.element? = some e → TypeExpr.element? d.type = some (normal e.type)) ∧
          ∀ fields, d.children? = some fields → isObject d.type = true) ∧
        (∀ x, tagged.Constrains x → x ∈ tagged.table.fields ∧ tagged.table.implies x = true) ∧
          ∀ removed : Field → Bool,
            (∀ x ∈ tagged.table.fields, removed x = true → tagged.Constrains x) →
              ∀ direction, tagged.table.compare (tagged.table.without removed) direction = [] ∧
                (tagged.table.without removed).compare tagged.table direction = [] := by
  have distinct : (tagged.flatFields.map Field.path).Nodup := by decide
  have constrains : ∃ x, tagged.Constrains x :=
    ⟨_, .element List.mem_cons_self (.child rfl List.mem_cons_self (.element rfl .here))
      rfl rfl rfl rfl⟩
  exact ⟨isProper_tagged, distinct, constrains, constraints_implied isProper_tagged distinct⟩

end Model

end SchemaDrift
