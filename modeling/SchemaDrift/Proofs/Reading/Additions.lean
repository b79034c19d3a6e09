import SchemaDrift.Proofs.Schema.Put
import SchemaDrift.Reading.Script

namespace SchemaDrift

/-!
# Members and their tables

Adding a member changes no name of a table, so that a member is without a table from the start or
never. The lenient reading adds the members that have a table, and the strict reading stops at the
first that has none.
-/

namespace Schema

/-- Whether the table of a member is there. -/
def hasTableOf (s : Schema) (m : Text × Member) : Bool := (s.table? m.1).isSome

/-- The schema with a member added to its table. -/
def addMember (s : Schema) (m : Text × Member) : Schema := s.modifyTable m.1 (m.2.addTo ·)

theorem map_name_addMember (s : Schema) (m : Text × Member) :
    (s.addMember m).tables.map Table.name = s.tables.map Table.name :=
  map_modifyBy _ (fun t => Member.name_addTo t m.2) s.tables

theorem hasTableOf_addMember (s : Schema) (m : Text × Member) :
    (s.addMember m).hasTableOf = s.hasTableOf := by
  funext m'
  rw [hasTableOf, hasTableOf, Bool.eq_iff_iff]
  exact (find?_key_isSome_iff.trans (by rw [map_name_addMember])).trans find?_key_isSome_iff.symm

/-- Each table has the members that were added under its name. -/
theorem foldl_addMember {ts : List Table} (hn : (ts.map Table.name).Nodup)
    (ms : List (Text × Member)) : ms.foldl addMember ⟨ts⟩ =
      ⟨ts.map fun t => ((ms.filter (t.name == ·.1)).map Prod.snd).foldl Member.addTo t⟩ := by
  induction ms generalizing ts with
  | nil => simp
  | cons m ms ih =>
    have step : addMember ⟨ts⟩ m = ⟨ts.map fun t => if t.name == m.1 then m.2.addTo t else t⟩ :=
      congrArg Schema.mk (modifyBy_eq_map hn m.1 _)
    have names : (ts.map fun t => if t.name == m.1 then m.2.addTo t else t).map Table.name =
        ts.map Table.name := by
      rw [List.map_map]
      refine List.map_congr_left fun t _ => ?_
      rw [Function.comp_apply]
      split
      · exact Member.name_addTo t m.2
      · rfl
    rw [List.foldl_cons, step, ih (names ▸ hn), List.map_map]
    congr 1
    refine List.map_congr_left fun t _ => ?_
    rw [Function.comp_apply]
    by_cases h : (t.name == m.1) = true
    · rw [if_pos h, Member.name_addTo, List.filter_cons, if_pos h]
      rfl
    · rw [if_neg h, List.filter_cons, if_neg h]

end Schema

/-- What has to be said of a member. -/
def Member.remarks (s : Schema) (m : Text × Member) : List Warning :=
  if s.hasTableOf m then m.2.warnings m.1 else [.undefinedTable m.2.noun m.1 m.2.name]

theorem Reading.foldl_add (ms : List (Text × Member)) (r : Reading) :
    ms.foldl Reading.add r =
      { schema := (ms.filter r.schema.hasTableOf).foldl Schema.addMember r.schema
        warnings := r.warnings ++ ms.flatMap (Member.remarks r.schema) } := by
  induction ms generalizing r with
  | nil => simp
  | cons m ms ih =>
    rw [List.foldl_cons, ih, List.filter_cons, List.flatMap_cons]
    cases hm : r.schema.hasTableOf m with
    | false =>
      have add : r.add m = { r with
          warnings := r.warnings ++ [.undefinedTable m.2.noun m.1 m.2.name] } :=
        if_neg (Bool.eq_false_iff.mp hm)
      have remarks : Member.remarks r.schema m = [.undefinedTable m.2.noun m.1 m.2.name] :=
        if_neg (Bool.eq_false_iff.mp hm)
      simp [add, remarks]
    | true =>
      have add : r.add m = {
          schema := r.schema.addMember m
          warnings := r.warnings ++ m.2.warnings m.1 } := if_pos hm
      have remarks : Member.remarks r.schema m = m.2.warnings m.1 := if_pos hm
      have same : Member.remarks (r.schema.addMember m) = Member.remarks r.schema := by
        funext m'
        rw [Member.remarks, Member.remarks, Schema.hasTableOf_addMember]
      simp [add, remarks, same, Schema.hasTableOf_addMember]

theorem Script.foldlM_add?_eq (ms : List (Text × Member)) (s : Schema) :
    ms.foldlM add? s = (ms.find? (!s.hasTableOf ·)).elim (.ok (ms.foldl Schema.addMember s))
      fun m => .error (.orphan m.2.noun m.2.name m.1) := by
  induction ms generalizing s with
  | nil => rfl
  | cons m ms ih =>
    rw [List.foldlM_cons, List.find?_cons]
    cases hm : s.hasTableOf m with
    | false =>
      have stop : add? s m = .error (.orphan m.2.noun m.2.name m.1) :=
        if_neg (Bool.eq_false_iff.mp hm)
      rw [stop]
      rfl
    | true =>
      have add : add? s m = .ok (s.addMember m) := if_pos hm
      have rest := ih (s.addMember m)
      rw [Schema.hasTableOf_addMember] at rest
      rw [add, Bool.not_true, List.foldl_cons]
      exact rest

end SchemaDrift
