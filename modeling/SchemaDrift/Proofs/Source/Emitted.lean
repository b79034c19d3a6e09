import SchemaDrift.Proofs.Model.Inside
import SchemaDrift.Proofs.Source.Expression

namespace SchemaDrift

/-!
# Values of declarations

The expression that is emitted for a declaration has this declaration as its value.
-/

/-- Whether a declaration can be written: its named types have constructors, and its bounds are
numbers of 64 bits. -/
inductive Declaration.Written : Declaration → Prop
  | scalar {type : Text} (h : type ∈ scalars) (c : Clauses) : Written (of (.scalar type) c)
  | record (tables : List Text) (c : Clauses) : Written (of (.record tables) c)
  | option {inner : Declaration} (h : Written inner) (c : Clauses) : Written (of (.option inner) c)
  | container (kind : Container) {element : Declaration} (h : Written element) (max : Option Nat)
      (hmax : ∀ n ∈ max, n < boundLimit) (c : Clauses) :
      Written (of (.container kind element max) c)
  | object {fields : List (Text × Declaration)} (h : ∀ f ∈ fields, Written f.2) (c : Clauses) :
      Written (of (.object fields) c)
  | custom (type : Text) (c : Clauses) : Written (of (.custom type) c)

namespace Declaration

open TypeExpr

theorem lt_of_toNatBelow? {bound n : Nat} {t : Text} (h : Text.toNatBelow? bound t = some n) :
    n < bound := by
  simp only [Text.toNatBelow?, Option.ite_none_left_eq_some, Option.filter_eq_some_iff,
    decide_eq_true_eq] at h
  exact h.2.2

theorem written_containerShape {kind : Container} {d : Declaration} (hd : Written d)
    (bound : List Text) (type : Text) (c : Clauses) :
    Written (of ((containerShape? kind d bound).getD (.custom type)) c) := by
  cases bound with
  | nil => exact .container kind hd none (by simp) c
  | cons max rest =>
    rw [containerShape?]
    cases hm : Text.toNatBelow? boundLimit max with
    | none => exact .custom type c
    | some n =>
      refine .container kind hd (some n) ?_ c
      intro _ he
      cases he
      exact lt_of_toNatBelow? hm

theorem written_elementFor {inner : Inner} (hel : ∀ d ∈ inner.element, Written d) {e : Text}
    (he : Written (plain (shapeOf {} e))) {d : Declaration} (hd : inner.elementFor e = some d) :
    Written d := by
  rcases Inner.elementFor_cases hd with hd | rfl
  · exact hel d hd
  · exact he

theorem written_simple {type : Text} (inner : Inner) (ho : argumentOf? "option" type = none)
    (hobj : type ≠ "object") (hc : container? type = none) (c : Clauses) :
    Written (of (shapeOf inner type) c) := by
  rw [shapeOf_simple inner ho hobj hc]
  by_cases hs : scalars.contains type = true
  · rw [if_pos hs]
    exact .scalar (by simpa using hs) c
  · rw [if_neg hs]
    split
    · exact .record _ c
    · exact .custom _ c

/-- The shape of a type is written, if what is declared inside it is. -/
theorem written_shapeOf (type : Text) {inner : Inner} (hel : ∀ d ∈ inner.element, Written d)
    (hch : ∀ f ∈ inner.children, Written f.2) (c : Clauses) :
    Written (of (shapeOf inner type) c) := by
  induction hk : type.length using Nat.strongRecOn generalizing type inner c with
  | ind k ih =>
    cases ho : argumentOf? "option" type with
    | some wrapped =>
      have shorter := length_lt_of_argumentOf? ho
      rw [shapeOf_option inner ho]
      exact .option (ih wrapped.length (by omega) wrapped hel hch {} rfl) c
    | none =>
      by_cases hobj : type = "object"
      · rw [hobj, shapeOf_object]
        exact .object hch c
      cases hc : container? type with
      | none => exact written_simple inner ho hobj hc c
      | some found =>
        obtain ⟨kind, args⟩ := found
        cases args with
        | none =>
          rw [eq_keyword_of_container? hc, shapeOf_bare]
          cases hd : inner.elementFor "any" with
          | none => exact .custom _ c
          | some d =>
            have any : Written (plain (shapeOf {} "any")) := by
              rw [shapeOf_any]
              exact .scalar (by decide) {}
            exact .container kind (written_elementFor hel any hd) none (by simp) c
        | some args =>
          rw [shapeOf_container inner hc]
          cases hd : inner.elementFor ((splitTop ',' args).head?.getD []) with
          | none => exact .custom _ c
          | some d =>
            have shorter : ((splitTop ',' args).head?.getD []).length < k := by
              have hargs := length_lt_of_container? hc
              cases hs : splitTop ',' args with
              | nil => exact absurd hs (splitFrom_ne_nil ',' 0 args)
              | cons first rest =>
                have hfirst : first.length ≤ args.length :=
                  length_le_of_mem_splitTop (hs ▸ List.mem_cons_self)
                simp only [List.head?_cons, Option.getD_some]
                omega
            have plain : Written (plain (shapeOf {} ((splitTop ',' args).head?.getD []))) :=
              ih _ shorter _ (by simp) (by simp) {} rfl
            exact written_containerShape (written_elementFor hel plain hd) _ _ c

theorem written_ofField {t : Table} : ∀ f ∈ t.fields, Written (ofField t f) := by
  refine Table.absorbed_induction fun f _ ih => ?_
  rw [ofField_eq]
  refine written_shapeOf _ (fun d hd => ?_) (fun child hchild => ?_) _
  · obtain ⟨g, hg, rfl⟩ := Option.map_eq_some_iff.mp hd
    exact ih g (List.mem_of_find?_eq_some hg)
  · obtain ⟨g, hg, rfl⟩ := List.mem_map.mp hchild
    exact ih g (List.mem_filter.mp hg).1

end Declaration

namespace Source

variable {functions : List (Text × Value)} {e : Text} {v w : Value}

/-! ## Methods -/

theorem Yields.bareCall (h : Yields functions e v) {m : Method} (present : Bool)
    (hon : present = true → m.invoke? v [] = some w) (hoff : present = false → v = w) :
    Yields functions (e ++ bareCall m.name present) w := by
  cases present with
  | false => simpa [Source.bareCall, hoff rfl] using h
  | true => simpa [Source.bareCall] using h.method (yieldsAll_nil (t := []) (by decide)) (hon rfl)

theorem Yields.quotedCall (h : Yields functions e v) {m : Method} (arg : Option Text)
    (hon : ∀ t, arg = some t → m.invoke? v [.text t] = some w) (hoff : arg = none → v = w) :
    Yields functions (e ++ quotedCall m.name arg) w := by
  cases arg with
  | none => simpa [Source.quotedCall, hoff rfl] using h
  | some t => simpa [Source.quotedCall] using h.method (yields_quote t).yieldsAll (hon t rfl)

/-! ## Permissions -/

theorem yields_function {f : Function} (hf : f ∈ Function.all) {t : Text} {vs : List Value}
    (h : YieldsAll functions t vs) (hv : f.invoke? vs = some v) :
    Yields functions (f.path ++ '(' :: (t ++ [')'])) v := by
  have path : ∀ f ∈ Function.all, (∀ c ∈ f.path, Machine.isWordChar c = true) ∧ f.path ≠ [] ∧
      Function.ofPath? f.path = some f := by decide
  obtain ⟨hword, hne, hof⟩ := path f hf
  refine h.call hword hne ?_
  rw [Machine.call?, hof]
  exact hv

theorem yields_nullary {f : Function} (hf : f ∈ Function.all) (hv : f.invoke? [] = some v) :
    Yields functions (f.path ++ ['(', ')']) v :=
  yields_function hf (yieldsAll_nil (t := []) (by decide)) hv

theorem constant?_operation (op : Operation) :
    constant? ("PermissionKind::" ++ operationName op) = some (.operation op) := by
  cases op <;> rfl

theorem yieldsItem_operation (op : Operation) :
    YieldsItem functions ("PermissionKind::" ++ operationName op) (.operation op) := by
  refine yieldsItem_constant ?_ ?_ (constant?_operation op)
  · cases op <;> decide
  · cases op <;> decide

/-- Granting operation by operation gives the permissions back. -/
theorem foldl_set_granted (p : Permissions) :
    p.granted.foldl (fun q g => q.set g.1 g.2) .empty = p := by
  obtain ⟨select, create, update, delete⟩ := p
  cases select <;> cases create <;> cases update <;> cases delete <;> rfl

theorem grantCall_eq (op : Operation) (expr : Text) :
    grantCall op expr = '.' :: (Method.grant.name ++ '(' ::
      (("PermissionKind::" ++ operationName op) ++ ',' ::
        ([' '] ++ Text.quote expr) ++ [')'])) := by
  cases op <;> rfl

theorem Yields.grants {p : Permissions} {e : Text} (h : Yields functions e (.permissions p))
    (grants : List (Operation × Text)) :
    Yields functions (e ++ grants.flatMap fun g => grantCall g.1 g.2)
      (.permissions (grants.foldl (fun q g => q.set g.1 g.2) p)) := by
  induction grants generalizing p e with
  | nil => simpa using h
  | cons g grants ih =>
    have separated : Machine.IsLayout [' '] := by decide
    have args : YieldsAll functions _ [.operation g.1, .text g.2] :=
      (yieldsItem_operation g.1).cons separated (yields_quote g.2).yieldsAll
    have one := h.method (m := .grant) args rfl
    rw [← grantCall_eq] at one
    rw [List.flatMap_cons, ← List.append_assoc]
    exact ih one

theorem yields_permissions {p : Permissions} {expr : Text} (h : permissions? p = some expr) :
    Yields functions expr (.permissions p) := by
  unfold permissions? at h
  split at h
  · cases h
  rename_i hempty
  rw [← Option.some.inj h]
  split
  · rename_i expr hu
    rw [Permissions.uniform?_eq_some_iff.mp hu]
    split
    · rename_i he
      have form : ("Permissions::full()" : Text) = Function.fullPermissions.path ++ ['(', ')'] := by
        decide
      rw [he, form]
      exact yields_nullary (by decide) rfl
    split
    · rename_i he
      have form : ("Permissions::none()" : Text) = Function.nonePermissions.path ++ ['(', ')'] := by
        decide
      rw [he, form]
      exact yields_nullary (by decide) rfl
    · have form : ("Permissions::all(" : Text) ++ Text.quote expr ++ ")" =
          Function.allPermissions.path ++ '(' :: (Text.quote expr ++ [')']) := rfl
      rw [form]
      exact yields_function (by decide) (yields_quote expr).yieldsAll rfl
  · have form : ("Permissions::new()" : Text) = Function.newPermissions.path ++ ['(', ')'] := by
      decide
    have start : Yields functions "Permissions::new()" (.permissions .empty) := by
      rw [form]
      exact yields_nullary (by decide) rfl
    have all := start.grants p.granted
    rwa [foldl_set_granted] at all

theorem Yields.permissionsCall (h : Yields functions e v) {p : Permissions}
    (hon : Method.permissions.invoke? v [.permissions p] = some w) (hoff : p = .empty → v = w) :
    Yields functions (e ++ permissionsCall p) w := by
  unfold Source.permissionsCall
  split
  · rename_i hp
    have empty : p = .empty := by
      unfold permissions? at hp
      split at hp
      · exact Permissions.isEmpty_iff.mp ‹_›
      · cases hp
    rw [List.append_nil, ← hoff empty]
    exact h
  · rename_i expr hp
    exact h.method (yields_permissions hp).yieldsAll hon

/-! ## Declarations -/

theorem Yields.clauses {s : Shape Declaration} (h : Yields functions e (.declaration (.of s {})))
    (c : Clauses) : Yields functions (e ++ clauses c) (.declaration (.of s c)) := by
  have flexible : Yields functions (e ++ Source.bareCall "flexible" c.flexible)
      (.declaration (.of s { flexible := c.flexible })) :=
    h.bareCall (m := .flexible) c.flexible (fun hp => by rw [hp]; rfl) (fun hp => by rw [hp])
  have value : Yields functions _
      (.declaration (.of s { flexible := c.flexible, value := c.value })) :=
    flexible.quotedCall (m := .value) c.value (fun t ht => by rw [ht]; rfl) (fun ht => by rw [ht])
  have assertion : Yields functions _ (.declaration (.of s
      { flexible := c.flexible, value := c.value, assertion := c.assertion })) :=
    value.quotedCall (m := .assertion) c.assertion (fun t ht => by rw [ht]; rfl)
      (fun ht => by rw [ht])
  have default : Yields functions _ (.declaration (.of s
      { flexible := c.flexible, value := c.value, assertion := c.assertion
        default := c.default })) :=
    assertion.quotedCall (m := .default) c.default (fun t ht => by rw [ht]; rfl)
      (fun ht => by rw [ht])
  have readonly : Yields functions _ (.declaration (.of s
      { flexible := c.flexible, value := c.value, assertion := c.assertion
        default := c.default, readonly := c.readonly })) :=
    default.bareCall (m := .readonly) c.readonly (fun hp => by rw [hp]; rfl)
      (fun hp => by rw [hp])
  have permissions : Yields functions _ (.declaration (.of s c)) :=
    readonly.permissionsCall (p := c.permissions) rfl fun hp => by
      cases c
      cases hp
      rfl
  have form : e ++ Source.clauses c = e ++ Source.bareCall "flexible" c.flexible ++
      Source.quotedCall "value" c.value ++ Source.quotedCall "assert" c.assertion ++
      Source.quotedCall "default" c.default ++ Source.bareCall "readonly" c.readonly ++
      Source.permissionsCall c.permissions := by
    simp only [Source.clauses, List.append_assoc]
  rw [form]
  exact permissions

/-- Elements with commas between them are all values of theirs. -/
theorem yieldsAll_join {α : Type} {f : α → Text} {g : α → Value} {l : List α}
    (h : ∀ a ∈ l, Yields functions (f a) (g a)) :
    YieldsAll functions (Text.join ", " (l.map f)) (l.map g) := by
  induction l with
  | nil =>
    have none : YieldsAll functions [] [] := yieldsAll_nil (by decide)
    exact none
  | cons a l ih =>
    have first := h a List.mem_cons_self
    cases l with
    | nil => simpa using first.yieldsAll
    | cons b l =>
      have space : Machine.IsLayout [' '] := by decide
      rw [List.map_cons, List.map_cons, Text.join_cons_cons]
      exact first.item.cons space (ih fun c hc => h c (List.mem_cons_of_mem a hc))

theorem yieldsAll_quotes (ts : List Text) :
    YieldsAll functions (Text.join ", " (ts.map Text.quote)) (ts.map .text) :=
  yieldsAll_join fun t _ => yields_quote t

theorem mapM_text? (ts : List Text) : (ts.map Value.text).mapM Value.text? = some ts := by
  induction ts with
  | nil => rfl
  | cons t ts ih => simp [ih, Value.text?]

theorem mapM_named? (fields : List (Text × Declaration)) :
    (fields.map fun f => Value.named f.1 f.2).mapM Value.named? = some fields := by
  induction fields with
  | nil => rfl
  | cons f fields ih => simp [ih, Value.named?]

/-- A number that is not called is a number. -/
theorem constant?_ofNat {n : Nat} (h : n < Declaration.boundLimit) :
    constant? (Text.ofNat n) = some (.number n) := by
  have digits : ∀ c ∈ Text.ofNat n, c.isDigit = true := fun c hc =>
    Nat.isDigit_of_mem_toDigits (by decide) (by decide) hc
  have none : (Operation.all.find? fun op =>
      ("PermissionKind::" ++ operationName op : Text) == Text.ofNat n) = none := by
    refine List.find?_eq_none.mpr fun op _ he => ?_
    have letter : 'P' ∈ Text.ofNat n := by
      rw [← eq_of_beq he]
      exact List.mem_cons_self
    exact absurd (digits 'P' letter) (by decide)
  rw [constant?, none, Text.toNatBelow?_ofNat h]
  rfl

theorem yieldsItem_ofNat {n : Nat} (h : n < Declaration.boundLimit) :
    YieldsItem functions (Text.ofNat n) (.number n) := by
  refine yieldsItem_constant (fun c hc => ?_) Nat.toDigits_ne_nil (constant?_ofNat h)
  have digit : c.isDigit = true := Nat.isDigit_of_mem_toDigits (by decide) (by decide) hc
  simp [Machine.isWordChar, isIdentChar, Char.isAlphanum, digit]

/-- One line for each named declaration gives the fields. -/
theorem yieldsAll_entryLines {fields : List (Text × Declaration)} {indent : Text}
    (hindent : Machine.IsLayout indent)
    (h : ∀ f ∈ fields, Yields functions (builder indent f.2) (.declaration f.2)) {close : Text}
    (hclose : Machine.IsLayout close) :
    YieldsAll functions (entryLines indent fields ++ close)
      (fields.map fun f => .named f.1 f.2) := by
  induction fields with
  | nil => exact yieldsAll_nil hclose
  | cons f fields ih =>
    have space : Machine.IsLayout [' '] := by decide
    have newline : Machine.IsLayout ['\n'] := by decide
    have parts : YieldsAll functions (Text.quote f.1 ++ ',' :: ([' '] ++ builder indent f.2))
        [.text f.1, .declaration f.2] :=
      (yields_quote f.1).item.cons space (h f List.mem_cons_self).yieldsAll
    have item := (parts.named.after_layout hindent).item.cons newline
      (ih fun g hg => h g (List.mem_cons_of_mem f hg))
    have form : entryLines indent (f :: fields) ++ close =
        (indent ++ '(' :: (Text.quote f.1 ++ ',' :: ([' '] ++ builder indent f.2) ++ [')'])) ++
          ',' :: (['\n'] ++ (entryLines indent fields ++ close)) := by
      simp [entryLines]
    rw [form]
    exact item

theorem yields_object {fields : List (Text × Declaration)}
    (h : ∀ f ∈ fields, ∀ indent, Machine.IsLayout indent →
      Yields functions (builder indent f.2) (.declaration f.2)) {indent : Text}
    (hindent : Machine.IsLayout indent) :
    Yields functions (shapeBuilder indent (.object fields))
      (.declaration (.of (.object fields) {})) := by
  have value : Function.object.invoke? [.list (fields.map fun f => .named f.1 f.2)] =
      some (.declaration (.of (.object fields) {})) := by
    rw [Function.invoke?, mapM_named?]
    rfl
  cases fields with
  | nil =>
    have none : YieldsAll functions [] [] := yieldsAll_nil (by decide)
    have call := yields_function (f := .object) (by decide) none.vec.yieldsAll value
    have form : shapeBuilder indent (.object []) =
        Function.object.path ++ '(' :: ((("vec![" : Text) ++ ([] ++ [']'])) ++ [')']) := by
      change ("Field::object(vec![])" : Text) = _
      decide
    rwa [form]
  | cons f fields =>
    have space : Machine.IsLayout "    " := by decide
    have newline : Machine.IsLayout ['\n'] := by decide
    have wider := hindent.append space
    have entries := yieldsAll_entryLines wider (fun g hg => h g hg _ wider) hindent
    have call := yields_function (f := .object) (by decide)
      (entries.after_layout newline).vec.yieldsAll value
    have form : shapeBuilder indent (.object (f :: fields)) = Function.object.path ++
        '(' :: ((("vec![" : Text) ++
          (['\n'] ++ (entryLines (indent ++ "    ") (f :: fields) ++ indent) ++
          [']'])) ++ [')']) := by
      change ("Field::object(vec![\n" : Text) ++ entryLines (indent ++ "    ") (f :: fields) ++
        indent ++ "])" = ("Field::object" : Text) ++ _
      simp
    rwa [form]

theorem yields_record (indent : Text) (tables : List Text) :
    Yields functions (shapeBuilder indent (.record tables))
      (.declaration (.of (.record tables) {})) := by
  have value : Function.record.invoke? [.list (tables.map .text)] =
      some (.declaration (.of (.record tables) {})) := by
    rw [Function.invoke?, mapM_text?]
    rfl
  have names : YieldsAll functions _ (tables.map .text) := yieldsAll_quotes tables
  have call := yields_function (f := .record) (by decide) names.list.yieldsAll value
  have form : shapeBuilder indent (.record tables) = Function.record.path ++
      '(' :: ('[' :: (Text.join ", " (tables.map Text.quote) ++ [']']) ++ [')']) := by
    change ("Field::record([" : Text) ++ Text.join ", " (tables.map Text.quote) ++ "])" =
      ("Field::record" : Text) ++ _
    simp
  rwa [form]

theorem Yields.container {indent : Text} {kind : Container} {element : Declaration}
    {max : Option Nat} (h : Yields functions (builder indent element) (.declaration element))
    (hmax : ∀ n ∈ max, n < Declaration.boundLimit) :
    Yields functions (shapeBuilder indent (.container kind element max))
      (.declaration (.of (.container kind element max) {})) := by
  cases max with
  | none =>
    have call := yields_function (f := .container kind) (by cases kind <;> decide) h.yieldsAll rfl
    have form : shapeBuilder indent (.container kind element none) =
        (Function.container kind).path ++ '(' :: (builder indent element ++ [')']) := by
      cases kind <;> rfl
    rwa [form]
  | some n =>
    have space : Machine.IsLayout [' '] := by decide
    have call := yields_function (f := .bounded kind) (by cases kind <;> decide)
      (h.item.cons space (yieldsItem_ofNat (hmax n rfl)).yieldsAll) rfl
    have form : shapeBuilder indent (.container kind element (some n)) =
        (Function.bounded kind).path ++
          '(' :: (builder indent element ++ ',' :: ([' '] ++ Text.ofNat n) ++ [')']) := by
      change ("Field::" : Text) ++ kind.keyword ++ "_max(" ++ builder indent element ++ ", " ++
        Text.ofNat n ++ ")" = ("Field::" : Text) ++ kind.keyword ++ "_max" ++ _
      simp
    rwa [form]

theorem yields_custom (type : Text) :
    Yields functions (Source.custom type) (.declaration (.of (.custom type) {})) := by
  unfold Source.custom
  split
  · rename_i kind hk
    have form : type = "geometry" ++ '<' :: (kind ++ ['>']) :=
      TypeExpr.argumentOf?_eq_some_iff.mp (Option.filter_eq_some_iff.mp hk).1
    have quoted : Yields functions _ (.text kind) := yields_quote kind
    have call := yields_function (f := .geometry) (by decide) quoted.yieldsAll rfl
    have value : Declaration.geometry kind = .custom type := by
      rw [form, Declaration.geometry]
      simp
    rw [Declaration.plain, value] at call
    exact call
  · exact yields_function (f := .custom) (by decide) (yields_quote type).yieldsAll rfl

theorem yields_builder {d : Declaration} (h : d.Written) {indent : Text}
    (hindent : Machine.IsLayout indent) :
    Yields functions (builder indent d) (.declaration d) := by
  induction h generalizing indent with
  | @scalar type ht c =>
    have mem : Function.scalar type ∈ Function.all :=
      List.mem_append_left _ (List.mem_map_of_mem ht)
    have plain : Yields functions (shapeBuilder indent (.scalar type)) _ := yields_nullary mem rfl
    exact plain.clauses c
  | record tables c => exact (yields_record indent tables).clauses c
  | @option inner _ c ih =>
    have call := yields_function (f := .option) (by decide) (ih hindent).yieldsAll rfl
    have form : shapeBuilder indent (.option inner) =
        Function.option.path ++ '(' :: (builder indent inner ++ [')']) := rfl
    rw [← form] at call
    exact call.clauses c
  | @container kind element _ max hmax c ih => exact ((ih hindent).container hmax).clauses c
  | object _ c ih => exact (yields_object (fun f hf _ hi => ih f hf hi) hindent).clauses c
  | custom type c => exact (yields_custom type).clauses c

end Source

end SchemaDrift
