import SchemaDrift.Proofs.Model.Grammar
import SchemaDrift.Proofs.Model.Inside

namespace SchemaDrift

/-!
# Fields of declarations

The declarations of a table are folded from its fields. Unfolded, they give each of these fields
once more, and besides only elements that the types of the containers around them name already.
-/

open TypeExpr Declaration

/-- Whether two fields have the same type and clauses. -/
structure Field.Agrees (f g : Field) : Prop where
  type : normal f.type = normal g.type
  flexible : f.flexible = g.flexible
  default : f.default = g.default
  value : f.value = g.value
  assertion : f.assertion = g.assertion
  readonly : f.readonly = g.readonly
  permissions : f.permissions = g.permissions

namespace Table

/-- Whether the fields can be folded into declarations: their paths are distinct, the elements of a
container have the container around them, and their types are read. -/
structure Foldable (t : Table) : Prop where
  paths : ∀ f ∈ t.fields, IsPath f.name
  distinct : (t.fields.map Field.path).Nodup
  around : ∀ f ∈ t.fields, f.isWildcard = true → ∃ p ∈ t.fields, Path.parent? f.name = some p.path
  readable : ∀ f ∈ t.fields, Readable (normal f.type)

/-- Whether the elements at a path have a type only because the types of containers name it. -/
inductive Implied (t : Table) : Text → Text → Prop
  | element {f : Field} {e : Text} (hf : f ∈ t.fields) (he : elementOf? (normal f.type) = some e)
      (hnone : ∀ g ∈ t.fields, g.path ≠ f.path ++ ".*") : Implied t (f.path ++ ".*") e
  | inner {path type e : Text} (h : Implied t path type) (he : elementOf? type = some e) :
      Implied t (path ++ ".*") e

/-- Whether a field among others stands for a field of the table, or for the elements of the
container among them. -/
def Accounts (t : Table) (fs : List Field) (g : Field) : Prop :=
  (∃ f ∈ t.fields, f.path = g.path ∧ f.Agrees g) ∨
    (g.default = none ∧ g.value = none ∧ g.assertion = none ∧ Implied t g.path (normal g.type) ∧
      ∃ name, g.name = name ++ ".*" ∧ ∃ p ∈ fs, p.path = Path.normal name)

variable {t : Table}

/-- A field of the table whose path ends in a star describes the elements of the field before. -/
theorem Foldable.of_star (h : t.Foldable) {f : Field} (hf : f ∈ t.fields) {path : Text}
    (hp : f.path = path ++ ".*") : f.isWildcard = true ∧ Path.parent? f.name = some path := by
  have hpath := h.paths f hf
  rcases hpath.cases with hn | ⟨q, s, -, hs, hname⟩
  · have dot : '.' ∉ f.path := by
      rw [Field.path, hn.normal_eq]
      exact hn.not_mem (by decide)
    exact absurd (by rw [hp]; simp) dot
  · obtain ⟨n, hn, hdot, hstar⟩ := hs.exists_normal_eq
    have whole : path ++ '.' :: ['*'] = Path.normal q ++ '.' :: n := by
      rw [← hn, ← hs.normal_append q, ← hname]
      exact hp.symm
    have before : path = Path.normal q := by
      have cut := congrArg Path.beforeLastDot whole
      rw [Path.beforeLastDot_dot _ (by decide), Path.beforeLastDot_dot _ hdot] at cut
      exact Option.some.inj cut
    refine ⟨?_, by rw [hname, hs.parent?_append q, before]⟩
    rw [Field.isWildcard, hname, hs.isWildcard_append q, ← hstar]
    rw [before] at whole
    exact (List.cons.inj (List.append_cancel_left whole)).2.symm

/-- The path of a field continues any spelling of the path of the field around it. -/
theorem Foldable.normal_append_step (h : t.Foldable) {f p : Field} (hf : f ∈ t.fields)
    (hparent : Path.parent? f.name = some p.path) {name : Text}
    (hname : Path.normal name = p.path) : Path.normal (name ++ Path.step f.name) = f.path := by
  rw [(h.paths f hf).normal_append_step hparent, hname]
  exact ((h.paths f hf).normal_eq_append_step hparent).symm

theorem Foldable.exists_around (h : t.Foldable) {f : Field} (hf : f ∈ t.fields) {path : Text}
    (hp : f.path = path ++ ".*") : ∃ p ∈ t.fields, p.path = path := by
  obtain ⟨hw, hparent⟩ := h.of_star hf hp
  obtain ⟨p, hp', hparent'⟩ := h.around f hf hw
  exact ⟨p, hp', Option.some.inj (hparent'.symm.trans hparent)⟩

namespace Implied

variable {path type : Text}

/-- No field of the table stands at an implied path. -/
theorem path_ne (h : Implied t path type) (ht : t.Foldable) : ∀ g ∈ t.fields, g.path ≠ path := by
  induction h with
  | element _ _ hnone => exact hnone
  | inner _ _ ih =>
    intro g hg he
    obtain ⟨p, hp, hpath⟩ := ht.exists_around hg he
    exact ih p hp hpath

/-- An implied path has one type. -/
theorem unique (h : Implied t path type) (ht : t.Foldable) {other : Text}
    (h' : Implied t path other) : type = other := by
  induction h generalizing other with
  | @element f e hf he _ =>
    generalize hpath : f.path ++ ".*" = path at h'
    cases h' with
    | @element f' e' hf' he' _ =>
      have same : f = f' :=
        List.inj_on_of_nodup_map ht.distinct hf hf' (List.append_cancel_right hpath)
      rw [← same, he] at he'
      exact Option.some.inj he'
    | inner h' _ => exact absurd (List.append_cancel_right hpath) (h'.path_ne ht f hf)
  | @inner path type e h he ih =>
    generalize hpath : path ++ ".*" = path' at h'
    cases h' with
    | @element f' _ hf' _ _ =>
      exact absurd (List.append_cancel_right hpath).symm (h.path_ne ht f' hf')
    | inner h' he' =>
      rw [← List.append_cancel_right hpath] at h'
      rw [← ih h', he] at he'
      exact Option.some.inj he'

end Implied

end Table

namespace Declaration

variable {t : Table} {fs : List Field}

theorem spells_ofField (ht : t.Foldable) :
    ∀ f ∈ t.fields, Spells (ofField t f).type (normal f.type) := by
  refine Table.absorbed_induction fun f hf ih => ?_
  rw [ofField_eq]
  refine (ht.readable f hf).spells_shapeOf _ _ fun d hd e he => ?_
  obtain ⟨g, hfind, rfl⟩ := Option.map_eq_some_iff.mp hd
  have hg := List.mem_of_find?_eq_some hfind
  have names := ((Table.mem_absorbed_iff ht.distinct hf).mp hg).2.2
  rw [Table.Names, if_pos (by simpa using List.find?_some hfind), he] at names
  rw [Option.some.inj names]
  exact ih g hg

theorem agrees_field (ht : t.Foldable) {f : Field} (hf : f ∈ t.fields) (path : Text) :
    f.Agrees ((ofField t f).field path) := by
  have type := (spells_ofField ht f hf).normal
  rw [ofField_eq] at type ⊢
  exact ⟨type.symm, rfl, rfl, rfl, rfl, rfl, rfl⟩

theorem spells_plain {type : Text} (h : Readable type) :
    Spells (plain (shapeOf {} type)).type type := h.spells_shapeOf {} {} (by simp)

theorem normal_elements (name : Text) : Path.normal (name ++ ".*") = Path.normal name ++ ".*" :=
  Path.normal_dot name ['*']

/-- What stands for elements is implied, and so is what stands for the elements in them. -/
theorem accounts_flatten_plain {e : Text} (he : Readable e) {name : Text}
    (himp : t.Implied (Path.normal name ++ ".*") e) (hp : ∃ p ∈ fs, p.path = Path.normal name)
    (hinside : ∀ x ∈ (plain (shapeOf {} e)).inside (name ++ ".*"), t.Accounts fs x) :
    ∀ x ∈ (plain (shapeOf {} e)).flatten (name ++ ".*"), t.Accounts fs x := by
  intro x hx
  rcases List.mem_cons.mp hx with rfl | hx
  · have path : ((plain (shapeOf {} e)).field (name ++ ".*")).path = Path.normal name ++ ".*" :=
      normal_elements name
    have type : normal ((plain (shapeOf {} e)).field (name ++ ".*")).type = e :=
      (spells_plain he).normal
    refine .inr ⟨rfl, rfl, rfl, ?_, name, rfl, hp⟩
    rwa [path, type]
  · exact hinside x hx

theorem inside_plain_simple {type : Text} (ho : argumentOf? "option" type = none)
    (hc : container? type = none) (name : Text) :
    (plain (shapeOf {} type)).inside name = [] := by
  have alone := unwrapOption_of_none ho
  by_cases hobj : type = "object"
  · exact inside_shapeOf_object {} (alone.trans hobj) name {}
  · refine inside_shapeOf_simple {} ?_ (fun he => hobj (alone.symm.trans he)) name {}
    rw [elementOf?, alone, hc]

theorem accounts_inside_plain {type : Text} (h : Readable type) {name : Text}
    (himp : ∀ e, elementOf? type = some e → t.Implied (Path.normal name ++ ".*") e)
    (hp : ∃ p ∈ fs, p.path = Path.normal name)
    (hfs : ∀ x ∈ (plain (shapeOf {} type)).inside name, x ∈ fs) :
    ∀ x ∈ (plain (shapeOf {} type)).inside name, t.Accounts fs x := by
  induction h generalizing name with
  | @option type _ ih =>
    have same : (plain (shapeOf {} (application "option" [type]))).inside name =
        (plain (shapeOf {} type)).inside name := by
      rw [shapeOf_option {} (Readable.argumentOf?_option type), plain, inside]
    rw [Readable.elementOf?_option] at himp
    rw [same] at hfs ⊢
    exact ih himp hp hfs
  | bare kind =>
    have atom : Settled "any" := IsAtom.settled (by decide)
    have readable : Readable "any" := .simple atom (by decide) (by decide)
    have inside : (plain (shapeOf {} kind.keyword)).inside name =
        (plain (shapeOf {} "any")).flatten (name ++ ".*") :=
      inside_shapeOf_element {} (Readable.elementOf?_bare kind) (Readable.bare kind).hasBound
        name {}
    rw [inside]
    refine accounts_flatten_plain readable (himp _ (Readable.elementOf?_bare kind)) hp ?_
    rw [inside_plain_simple (by decide) (by decide)]
    simp
  | @container kind max e h hmax hany ih =>
    have own := himp e (Readable.elementOf?_container kind h max)
    have inside : (plain (shapeOf {} (application kind.keyword (e :: boundArgument max)))).inside
        name = (plain (shapeOf {} e)).flatten (name ++ ".*") :=
      inside_shapeOf_element {} (Readable.elementOf?_container kind h max)
        (Readable.container kind max h hmax hany).hasBound name {}
    rw [inside] at hfs ⊢
    refine accounts_flatten_plain h own hp (ih ?_ ?_ fun x hx => hfs x (List.mem_cons_of_mem _ hx))
    · intro e' he'
      rw [normal_elements]
      exact own.inner he'
    · exact ⟨_, hfs _ List.mem_cons_self, rfl⟩
  | simple _ ho hc =>
    rw [inside_plain_simple ho hc]
    simp

theorem accounts_elements {e : Text} (he : Readable e) {name : Text}
    (himp : t.Implied (Path.normal name ++ ".*") e)
    (hfs : ∀ x ∈ (plain (shapeOf {} e)).flatten (name ++ ".*"), x ∈ fs) :
    ∀ x ∈ (plain (shapeOf {} e)).inside (name ++ ".*"), t.Accounts fs x := by
  refine accounts_inside_plain he (fun e' he' => ?_) ⟨_, hfs _ List.mem_cons_self, rfl⟩
    fun x hx => hfs x (List.mem_cons_of_mem _ hx)
  rw [normal_elements]
  exact himp.inner he'

theorem readable_element {type e : Text} (h : Readable type) (he : elementOf? type = some e) :
    Readable e := by
  induction h with
  | option _ ih =>
    rw [Readable.elementOf?_option] at he
    exact ih he
  | bare kind =>
    rw [Readable.elementOf?_bare] at he
    cases he
    exact .simple (IsAtom.settled (by decide)) (by decide) (by decide)
  | container kind max h _ _ _ =>
    rw [Readable.elementOf?_container kind h max] at he
    cases he
    exact h
  | simple _ ho hc =>
    rw [elementOf?, unwrapOption_of_none ho, hc] at he
    cases he

/-- A container without a constraint of its elements implies their type. -/
theorem implied_element (ht : t.Foldable) {f : Field} (hf : f ∈ t.fields) {e : Text}
    (he : elementOf? (normal f.type) = some e) (hnone : t.absorbed f = [])
    (hstray : t.hasStray f = false) : t.Implied (f.path ++ ".*") e := by
  refine .element hf he fun g hg hpath => ?_
  obtain ⟨hw, hparent⟩ := ht.of_star hg hpath
  have inside : Table.isInside g f = true := Table.isInside_iff.mpr hparent
  have absorbs : t.absorbs g = true := by
    by_contra habs
    have stray : t.hasStray f = true :=
      List.any_eq_true.mpr ⟨g, hg, by simp [hw, inside, habs]⟩
    rw [hstray] at stray
    cases stray
  have hm : g ∈ t.absorbed f := List.mem_filter.mpr ⟨hg, by rw [inside, absorbs]; rfl⟩
  rw [hnone] at hm
  cases hm

/-- Every field of a declaration of the table, unfolded, is accounted for. -/
theorem accounts_flatten_ofField (ht : t.Foldable) :
    ∀ f ∈ t.fields, ∀ name, Path.normal name = f.path →
      (∀ x ∈ (ofField t f).flatten name, x ∈ fs) →
        ∀ x ∈ (ofField t f).flatten name, t.Accounts fs x := by
  refine Table.absorbed_induction fun f hf ih name hname hfs x hx => ?_
  have hb := (ht.readable f hf).hasBound
  rcases List.mem_cons.mp hx with rfl | hx
  · exact .inl ⟨f, hf, hname.symm, agrees_field ht hf name⟩
  have inside (y : Field) : y ∈ (ofField t f).inside name ↔ _ :=
    mem_inside_ofField_iff ht.distinct ht.paths hf hb
  rcases (inside x).mp hx with ⟨g, hg, hx⟩ | ⟨e, he, hnone, hstray, hx⟩
  · obtain ⟨hgm, hparent, -⟩ := (Table.mem_absorbed_iff ht.distinct hf).mp hg
    refine ih g hg _ ?_ (fun y hy => ?_) x hx
    · exact ht.normal_append_step hgm hparent hname
    · exact hfs y (List.mem_cons_of_mem _ ((inside y).mpr (.inl ⟨g, hg, hy⟩)))
  · have readable := readable_element (ht.readable f hf) he
    have implied := implied_element ht hf he hnone hstray
    rw [← hname] at implied
    have hfs' : ∀ y ∈ (plain (shapeOf {} e)).flatten (name ++ ".*"), y ∈ fs := fun y hy =>
      hfs y (List.mem_cons_of_mem _ ((inside y).mpr (.inr ⟨e, he, hnone, hstray, hy⟩)))
    exact accounts_flatten_plain readable implied ⟨_, hfs _ List.mem_cons_self, rfl⟩
      (accounts_elements readable implied hfs') x hx

/-- Every field of the table is declared, on its own or inside the field around it. -/
theorem exists_flatten_subset (ht : t.Foldable) (houter : ∀ f ∈ t.outermost,
    ∀ x ∈ (ofField t f).flatten f.name, x ∈ fs) {f : Field} (hf : f ∈ t.fields) :
    ∃ name, Path.normal name = f.path ∧ ∀ x ∈ (ofField t f).flatten name, x ∈ fs := by
  induction hk : f.path.length using Nat.strongRecOn generalizing f with
  | ind k ih =>
    by_cases habs : t.absorbs f = true
    · obtain ⟨p, hp, hparent, hnames⟩ := (Table.absorbs_iff ht.distinct).mp habs
      have hin : f ∈ t.absorbed p :=
        (Table.mem_absorbed_iff ht.distinct hp).mpr ⟨hf, hparent, hnames⟩
      have shorter := Table.length_path_lt_of_mem_absorbed hin
      obtain ⟨name, hname, hsub⟩ := ih p.path.length (by omega) hp rfl
      refine ⟨name ++ Path.step f.name, ?_, fun x hx => hsub x (List.mem_cons_of_mem _ ?_)⟩
      · exact ht.normal_append_step hf hparent hname
      · exact (mem_inside_ofField_iff ht.distinct ht.paths hp (ht.readable p hp).hasBound).mpr
          (.inl ⟨f, hin, hx⟩)
    · exact ⟨f.name, rfl, houter f (List.mem_filter.mpr ⟨hf, by simpa using habs⟩)⟩

end Declaration

end SchemaDrift
