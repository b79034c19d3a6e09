import SchemaDrift.Migration.Render
import SchemaDrift.Proofs.Change.About
import SchemaDrift.Proofs.Reading.RoundTrip

namespace SchemaDrift

/-!
# Indexes that the database manages

Full-text and vector indexes have no written form, so a change that has to write one has no
statement. But a removal only names the index, and a new definition in its place is written from the
source: both are rendered even where the target manages the index.
-/

namespace Schema

/-- Whether tables, and the indexes of a table, have names of their own. -/
structure Distinct (s : Schema) : Prop where
  names : (s.tables.map Table.name).Nodup
  indexNames : ∀ t ∈ s.tables, (t.indexes.map Index.name).Nodup

def index? (s : Schema) (table name : Text) : Option Index := (s.table? table).bind (·.index? name)

theorem index?_of_table? {s : Schema} {t : Table} {table : Text} (h : s.table? table = some t)
    (name : Text) : s.index? table name = t.index? name := by
  rw [index?, h, Option.bind_some]

/-- Whether the schema has an index that the database manages on its own. -/
def manages (s : Schema) (table name : Text) : Bool :=
  (s.index? table name).any (·.isDetectionOnly)

theorem Distinct.lastTable?_eq {s : Schema} (h : s.Distinct) (name : Text) :
    s.lastTable? name = s.table? name := find?_reverse h.names name

end Schema

namespace Change

variable {source target : Schema} {c : Change} {n : Text}

/-- The ways in which an index can differ. -/
inductive IndexDiffers (source target : Schema) (table name : Text) : Kind → Prop
  | added {i : Index} (hs : source.index? table name = some i)
      (ht : target.index? table name = none) : IndexDiffers source target table name .indexAdded
  | removed {j : Index} (hs : source.index? table name = none)
      (ht : target.index? table name = some j) : IndexDiffers source target table name .indexRemoved
  | modified {i j : Index} (hs : source.index? table name = some i)
      (ht : target.index? table name = some j)
      (h : j.columns ≠ i.columns ∨ j.unique ≠ i.unique) :
      IndexDiffers source target table name .indexModified

theorem indexDiffers_of_mem_ofSourceIndex {s t : Table} {table : Text} {i : Index}
    (hs : source.index? table i.name = some i)
    (ht : target.index? table i.name = t.index? i.name) (h : c ∈ ofSourceIndex s t i) :
    IndexDiffers source target table i.name c.kind := by
  unfold ofSourceIndex at h
  split at h
  · rename_i hnone
    rw [List.mem_singleton.mp h]
    exact .added hs (ht.trans hnone)
  · rename_i j hj
    split at h
    · rename_i hdiffers
      rw [List.mem_singleton.mp h]
      exact .modified hs (ht.trans hj) hdiffers
    · cases h

/-- The same definition on both sides makes no change. -/
theorem not_indexDiffers {table : Text} {i j : Index} {kind : Kind}
    (hi : source.index? table n = some i) (hj : target.index? table n = some j)
    (hcolumns : j.columns = i.columns) (hunique : j.unique = i.unique) :
    ¬IndexDiffers source target table n kind := by
  intro h
  cases h with
  | added _ hnone =>
    rw [hj] at hnone
    cases hnone
  | removed hnone _ =>
    rw [hi] at hnone
    cases hnone
  | modified hi' hj' hdiffers =>
    rw [hi] at hi'
    rw [hj] at hj'
    cases hi'
    cases hj'
    rcases hdiffers with hdiffers | hdiffers
    · exact absurd hcolumns hdiffers
    · exact absurd hunique hdiffers

/-- An index of the target differs, and the source does not manage it, if the source has no index of
this name that is managed or has the same definition. -/
theorem exists_indexDiffers {table : Text} {j : Index} (hj : target.index? table n = some j)
    (hno : ¬∃ i, source.index? table n = some i ∧
      (i.isDetectionOnly = true ∨ (j.columns = i.columns ∧ j.unique = i.unique))) :
    ∃ kind, IndexDiffers source target table n kind ∧ source.manages table n = false := by
  cases hi : source.index? table n with
  | none =>
    refine ⟨_, .removed hi hj, ?_⟩
    rw [Schema.manages, hi]
    rfl
  | some i =>
    have neither : ¬(i.isDetectionOnly = true ∨ (j.columns = i.columns ∧ j.unique = i.unique)) :=
      fun hyes => hno ⟨i, hi, hyes⟩
    rw [not_or, not_and_or] at neither
    refine ⟨_, .modified hi hj neither.2, ?_⟩
    rw [Schema.manages, hi]
    simpa using neither.1

theorem indexDiffers_of_mem (hs : source.Distinct) (ht : target.Distinct)
    (hc : c ∈ source.compare target .push) (hn : c.index = some n) :
    (source.table? c.table).isSome = true ∧ (target.table? c.table).isSome = true ∧
      IndexDiffers source target c.table n c.kind := by
  rcases mem_compare.mp hc with ⟨s, -, -, rfl⟩ | ⟨t, -, -, rfl⟩ | ⟨s, hsm, t, hlast, d, hd, rfl⟩
  · cases hn
  · cases hn
  change d.index = some n at hn
  change (source.table? d.table).isSome = true ∧ (target.table? d.table).isSome = true ∧
    IndexDiffers source target d.table n d.kind
  have hsource : source.table? s.name = some s := find?_key_of_mem hs.names hsm
  have htarget : target.table? s.name = some t := (ht.lastTable?_eq s.name).symm.trans hlast
  have ofSource := Schema.index?_of_table? hsource
  have ofTarget := Schema.index?_of_table? htarget
  rcases mem_ofTables.mp hd with hd | ⟨f, -, hd⟩ | ⟨f, -, hd⟩ | ⟨i, hi, hd⟩ | ⟨j, hj, hd⟩
  · rw [(mem_ofKind hd).2.2.2] at hn
    cases hn
  · rw [(mem_ofSourceField hd).2.2.2] at hn
    cases hn
  · rw [(mem_ofTargetField hd).2.2.2] at hn
    cases hn
  · obtain ⟨-, htable, -, hindex⟩ := mem_ofSourceIndex hd
    rw [hindex] at hn
    cases hn
    have here : source.index? s.name i.name = some i :=
      (ofSource i.name).trans (find?_key_of_mem (hs.indexNames s hsm) hi)
    rw [htable, hsource, htarget]
    exact ⟨rfl, rfl, indexDiffers_of_mem_ofSourceIndex here (ofTarget i.name) hd⟩
  · obtain ⟨hkind, htable, -, hindex, hnone⟩ := mem_ofTargetIndex hd
    rw [hindex] at hn
    cases hn
    obtain ⟨htm, -⟩ := find?_key_eq_some htarget
    rw [htable, hkind, hsource, htarget]
    exact ⟨rfl, rfl, .removed ((ofSource j.name).trans hnone)
      ((ofTarget j.name).trans (find?_key_of_mem (ht.indexNames t htm) hj))⟩

/-- Every index that differs between common tables has a change. -/
theorem exists_mem_of_indexDiffers (ht : target.Distinct) {table : Text} {kind : Kind}
    (hsource : (source.table? table).isSome = true) (htarget : (target.table? table).isSome = true)
    (h : IndexDiffers source target table n kind) :
    ∃ c ∈ source.compare target .push, c.table = table ∧ c.index = some n := by
  obtain ⟨s, hs⟩ := Option.isSome_iff_exists.mp hsource
  obtain ⟨t, ht'⟩ := Option.isSome_iff_exists.mp htarget
  obtain ⟨hsm, rfl⟩ := find?_key_eq_some hs
  have last : target.lastTable? s.name = some t := (ht.lastTable?_eq s.name).trans ht'
  have ofSource := Schema.index?_of_table? hs
  have ofTarget := Schema.index?_of_table? ht'
  have ofTables {d : Change} (hd : d ∈ ofTables s t) (htable : d.table = s.name)
      (hindex : d.index = some n) :
      ∃ c ∈ source.compare target .push, c.table = s.name ∧ c.index = some n :=
    ⟨_, mem_compare.mpr (.inr (.inr ⟨s, hsm, t, last, d, hd, rfl⟩)), htable, hindex⟩
  have ofSourceIndexes {i : Index} (hi : s.index? n = some i) (hne : ofSourceIndex s t i ≠ []) :
      ∃ c ∈ source.compare target .push, c.table = s.name ∧ c.index = some n := by
    obtain ⟨him, rfl⟩ := find?_key_eq_some hi
    obtain ⟨d, hd⟩ := List.exists_mem_of_ne_nil _ hne
    obtain ⟨-, htable, -, hindex⟩ := mem_ofSourceIndex hd
    apply ofTables _ htable hindex
    exact mem_ofTables.mpr (.inr (.inr (.inr (.inl ⟨i, him, hd⟩))))
  cases h with
  | added hi hnone =>
    rw [ofSource] at hi
    rw [ofTarget] at hnone
    apply ofSourceIndexes hi
    obtain ⟨-, rfl⟩ := find?_key_eq_some hi
    rw [ofSourceIndex, hnone]
    exact List.cons_ne_nil _ _
  | @removed j hnone hj =>
    rw [ofSource] at hnone
    rw [ofTarget] at hj
    obtain ⟨hjm, rfl⟩ := find?_key_eq_some hj
    obtain ⟨d, hd⟩ : ∃ d, d ∈ ofTargetIndex s j := by
      rw [ofTargetIndex, hnone]
      exact ⟨_, List.mem_singleton_self _⟩
    obtain ⟨-, htable, -, hindex, -⟩ := mem_ofTargetIndex hd
    exact ofTables (mem_ofTables.mpr (.inr (.inr (.inr (.inr ⟨j, hjm, hd⟩))))) htable hindex
  | modified hi hj hdiffers =>
    rw [ofSource] at hi
    rw [ofTarget] at hj
    apply ofSourceIndexes hi
    obtain ⟨-, rfl⟩ := find?_key_eq_some hi
    rw [ofSourceIndex, hj]
    simp only [if_pos hdiffers]
    exact List.cons_ne_nil _ _

/-! ## What is rendered -/

theorem index?_eq_bind (s : Schema) (hn : c.index = some n) :
    c.index? s = (s.table? c.table).bind fun t => (t.index? n).map fun i => (t, i) := by
  rw [index?, hn]
  cases s.table? c.table with
  | none => rfl
  | some t =>
    simp only [Option.bind_eq_bind, Option.bind_some]
    cases t.index? n <;> rfl

theorem index?_of_some {s : Schema} {i : Index} (hn : c.index = some n)
    (h : s.index? c.table n = some i) :
    ∃ t, c.index? s = some (t, i) ∧ t.name = c.table ∧ i.name = n := by
  obtain ⟨t, ht, hi⟩ := Option.bind_eq_some_iff.mp h
  refine ⟨t, ?_, (find?_key_eq_some ht).2, (find?_key_eq_some hi).2⟩
  rw [index?_eq_bind s hn, ht, Option.bind_some, hi]
  rfl

theorem writeIndex?_of_managed {i : Index} (h : i.isDetectionOnly = true) (table : Text)
    (mode : Statement.Mode) : Statement.writeIndex? table i mode = none := if_pos h

theorem writeIndex?_eq_none_iff {i : Index} {table : Text} {mode : Statement.Mode} :
    Statement.writeIndex? table i mode = none ↔ i.isDetectionOnly = true := by
  simp [Statement.writeIndex?]

/-- A change of an index that one side manages is rendered from the source alone. -/
theorem statement?_of_managed (hs : source.Distinct) (ht : target.Distinct)
    (hc : c ∈ source.compare target .push) (hn : c.index = some n)
    (hm : source.manages c.table n = true ∨ target.manages c.table n = true) :
    c.statement? source target =
      match source.index? c.table n with
      | none => some (Statement.removeIndex c.table n)
      | some i => Statement.writeIndex? c.table i .overwrite := by
  obtain ⟨-, -, hdiffers⟩ := indexDiffers_of_mem hs ht hc hn
  generalize hkind : c.kind = kind at hdiffers
  rw [statement?, hkind]
  cases hdiffers with
  | @added i hi hnone =>
    -- The target has no such index, so it is the source that manages it.
    have managed : i.isDetectionOnly = true := by
      rcases hm with hm | hm
      · rwa [Schema.manages, hi] at hm
      · rw [Schema.manages, hnone] at hm
        cases hm
    obtain ⟨s, hfound, -, -⟩ := index?_of_some hn hi
    change (c.index? source).bind _ = _
    rw [hfound, hi]
    change Statement.writeIndex? s.name i .create = Statement.writeIndex? c.table i .overwrite
    rw [writeIndex?_of_managed managed, writeIndex?_of_managed managed]
  | @removed j hnone hj =>
    obtain ⟨t, hfound, -, hname⟩ := index?_of_some hn hj
    change (c.index? target).map _ = _
    rw [hfound, hnone, ← hname]
    rfl
  | @modified i j hi hj _ =>
    obtain ⟨s, hfound, htable, -⟩ := index?_of_some hn hi
    change (c.index? source).bind _ = _
    rw [hfound, hi, ← htable]
    rfl

theorem statement?_eq_none_iff (hs : source.Distinct) (ht : target.Distinct)
    (hc : c ∈ source.compare target .push) (hn : c.index = some n)
    (hm : source.manages c.table n = true ∨ target.manages c.table n = true) :
    c.statement? source target = none ↔ source.manages c.table n = true := by
  rw [statement?_of_managed hs ht hc hn hm, Schema.manages]
  cases source.index? c.table n with
  | none => simp
  | some i => exact writeIndex?_eq_none_iff

/-- The script of a table leaves out the indexes that the database manages. -/
theorem script_eq_script_properIndexes (t : Table) :
    Statement.script t = Statement.script { t with indexes := t.properIndexes } := by
  have indexes (is : List Index) : is.filterMap (Statement.writeIndex? t.name · .create) =
      (is.filter (!·.isDetectionOnly)).filterMap (Statement.writeIndex? t.name · .create) := by
    induction is with
    | nil => rfl
    | cons i is ih =>
      cases hi : i.isDetectionOnly with
      | false =>
        rw [List.filter_cons_of_pos (by simp [hi]), List.filterMap_cons, List.filterMap_cons, ih]
      | true =>
        rw [List.filter_cons_of_neg (by simp [hi]), List.filterMap_cons,
          writeIndex?_of_managed hi, ih]
  have definitions : Statement.definitions t =
      Statement.definitions { t with indexes := t.properIndexes } := by
    unfold Statement.definitions
    rw [indexes]
    rfl
  rw [Statement.script, definitions, Statement.script]

theorem unrendered_iff (hs : source.Distinct) (ht : target.Distinct) :
    (∀ c ∈ source.compare target .push, ∀ n ∈ c.index,
      (source.manages c.table n = true ∨ target.manages c.table n = true) →
        c.statement? source target = none) ↔
      ∀ table name j, target.index? table name = some j → j.isDetectionOnly = true →
        (source.table? table).isSome = true → ∃ i, source.index? table name = some i ∧
          (i.isDetectionOnly = true ∨ (j.columns = i.columns ∧ j.unique = i.unique)) := by
  constructor
  · intro h table name j hj hmanaged hsource
    have managed : target.manages table name = true := by
      rw [Schema.manages, hj]
      exact hmanaged
    have htarget : (target.table? table).isSome = true := by
      obtain ⟨t, ht, -⟩ := Option.bind_eq_some_iff.mp hj
      rw [ht]
      rfl
    by_contra hno
    obtain ⟨kind, hdiffers, hsourceless⟩ := exists_indexDiffers hj hno
    obtain ⟨c, hc, rfl, hn⟩ := exists_mem_of_indexDiffers ht hsource htarget hdiffers
    have unrendered := h c hc name hn (.inr managed)
    rw [statement?_eq_none_iff hs ht hc hn (.inr managed), hsourceless] at unrendered
    cases unrendered
  · intro h c hc n hn hm
    rw [statement?_eq_none_iff hs ht hc hn hm]
    rcases hm with hm | hm
    · exact hm
    · obtain ⟨hsource, -, hdiffers⟩ := indexDiffers_of_mem hs ht hc hn
      obtain ⟨j, hj, hmanaged⟩ := (Option.any_eq_true _ _).mp hm
      obtain ⟨i, hi, hsame⟩ := h c.table n j hj hmanaged hsource
      rw [Schema.manages, hi]
      rcases hsame with hsame | ⟨hcolumns, hunique⟩
      · exact hsame
      · exact absurd hdiffers (not_indexDiffers hi hj hcolumns hunique)

/-- What a migration does about indexes that a side manages. A change of such an index has no
statement just where the source manages it; otherwise it removes the index or defines another one in
its place. So a migration leaves the managed indexes of the target alone just if the source has each
of them, managed as well or with the same definition. The scripts of added tables leave out the
indexes that the source manages. -/
theorem managed_indexes_rendered (hs : source.Distinct) (ht : target.Distinct) :
    (∀ c ∈ source.compare target .push, ∀ n ∈ c.index,
      (source.manages c.table n = true ∨ target.manages c.table n = true) →
        (c.statement? source target = none ↔ source.manages c.table n = true) ∧
          c.statement? source target =
            match source.index? c.table n with
            | none => some (Statement.removeIndex c.table n)
            | some i => Statement.writeIndex? c.table i .overwrite) ∧
    ((∀ c ∈ source.compare target .push, ∀ n ∈ c.index,
      (source.manages c.table n = true ∨ target.manages c.table n = true) →
        c.statement? source target = none) ↔
      ∀ table name j, target.index? table name = some j → j.isDetectionOnly = true →
        (source.table? table).isSome = true → ∃ i, source.index? table name = some i ∧
          (i.isDetectionOnly = true ∨ (j.columns = i.columns ∧ j.unique = i.unique))) ∧
    ∀ c ∈ source.compare target .push, c.kind = .tableAdded →
      ∃ t, source.table? c.table = some t ∧ c.statement? source target =
        some (Statement.script { t with indexes := t.properIndexes }) := by
  refine ⟨?_, unrendered_iff hs ht, ?_⟩
  · intro c hc n hn hm
    exact ⟨statement?_eq_none_iff hs ht hc hn hm, statement?_of_managed hs ht hc hn hm⟩
  · intro c hc hkind
    rcases mem_compare.mp hc with ⟨t, htm, -, rfl⟩ | ⟨t, -, -, rfl⟩ | ⟨s, -, t, -, d, hd, rfl⟩
    · have found : source.table? t.name = some t := find?_key_of_mem hs.names htm
      refine ⟨t, found, ?_⟩
      rw [← script_eq_script_properIndexes]
      change (source.table? t.name).map _ = _
      rw [found]
      rfl
    · cases hkind
    · exact absurd (show d.kind = .tableAdded from hkind) (kind_ne_tableAdded hd)

/-- A table of the code, which cannot hold a full-text index. -/
def written : Schema := ⟨[{ name := "post", fields := [{ name := "text", type := "string" }] }]⟩

/-- The same table in a database, with a full-text index. -/
def searched : Schema := ⟨[
  { name := "post", fields := [{ name := "text", type := "string" }]
    indexes := [{ name := "by_text", columns := ["text"], search := true }] }]⟩

theorem distinct_written : written.Distinct := ⟨by decide, by decide⟩

theorem distinct_searched : searched.Distinct := ⟨by decide, by decide⟩

theorem exists_mem_compare_searched :
    ∃ c ∈ written.compare searched .push, c.index = some "by_text" ∧ c.table = "post" ∧
      searched.manages c.table "by_text" = true := by
  have differs : IndexDiffers written searched "post" "by_text" .indexRemoved := .removed rfl rfl
  obtain ⟨c, hc, htable, hn⟩ := exists_mem_of_indexDiffers distinct_searched rfl rfl differs
  refine ⟨c, hc, hn, htable, ?_⟩
  rw [htable]
  rfl

theorem managed_indexes_rendered_searched :
    ∃ c ∈ written.compare searched .push, c.index = some "by_text" ∧
      c.statement? written searched = some "REMOVE INDEX by_text ON TABLE post;" := by
  obtain ⟨c, hc, hn, htable, managed⟩ := exists_mem_compare_searched
  obtain ⟨changes, -, -⟩ := managed_indexes_rendered distinct_written distinct_searched
  obtain ⟨-, rendered⟩ := changes c hc _ hn (.inr managed)
  rw [htable] at rendered
  exact ⟨c, hc, hn, rendered⟩

/-- A migration removes a full-text index that the code knows nothing of. -/
theorem not_managed_indexes_unrendered :
    ¬∀ source target : Schema, source.Distinct → target.Distinct →
      ∀ c ∈ source.compare target .push, ∀ n ∈ c.index,
        (source.manages c.table n = true ∨ target.manages c.table n = true) →
          c.statement? source target = none := by
  intro h
  obtain ⟨c, hc, hn, htable, managed⟩ := exists_mem_compare_searched
  have unrendered := h written searched distinct_written distinct_searched c hc _ hn (.inr managed)
  rw [statement?_eq_none_iff distinct_written distinct_searched hc hn (.inr managed),
    htable] at unrendered
  cases unrendered

end Change

end SchemaDrift
