import SchemaDrift.Proofs.Merge.Generated
import SchemaDrift.Proofs.Merge.Steps

namespace SchemaDrift.Merge

open Code

/-!
# Sessions

A session merges one table after another into a generated file. After each merge the file declares
what the table has that was merged last, and nothing else.
-/

variable {names : Text → Prop} {v : Inventory} {text : Text} {markers : Markers} {o : Outcome}
  {p : Part} {database code t : Table}

/-! ## The parts of tables -/

/-- What is merged in a session: a table of paths, no two of them the same, and of different indexes
that the database does not manage on its own. -/
structure Mergeable (t : Table) : Prop where
  isName : IsName t.name
  paths : ∀ f ∈ t.fields, IsPath f.name
  distinct : (t.fields.map Field.path).Nodup
  indexes : (t.indexes.map Index.name).Nodup
  managed : ∀ i ∈ t.indexes, i.isDetectionOnly = false

instance (t : Table) : Decidable (Mergeable t) :=
  decidable_of_iff (IsName t.name ∧ (∀ f ∈ t.fields, IsPath f.name) ∧
      (t.fields.map Field.path).Nodup ∧ (t.indexes.map Index.name).Nodup ∧
      ∀ i ∈ t.indexes, i.isDetectionOnly = false)
    ⟨fun h => ⟨h.1, h.2.1, h.2.2.1, h.2.2.2.1, h.2.2.2.2⟩,
      fun h => ⟨h.isName, h.paths, h.distinct, h.indexes, h.managed⟩⟩

theorem Mergeable.nodup_fields (h : Mergeable t) : (t.fields.map Field.name).Nodup := by
  have paths : t.fields.map Field.path = (t.fields.map Field.name).map Path.normal := by
    rw [List.map_map]
    rfl
  have distinct := h.distinct
  rw [paths] at distinct
  exact distinct.of_map _

theorem Mergeable.nodup_partsOf (h : Mergeable t) : (partsOf t).Nodup := by
  refine List.nodup_append.mpr ⟨?_, ?_, ?_⟩
  · have own := h.nodup_fields.map (f := Part.field) fun a b he => Part.field.inj he
    rwa [List.map_map] at own
  · have own := h.indexes.map (f := Part.index) fun a b he => Part.index.inj he
    rwa [List.map_map] at own
  · intro a ha b hb
    obtain ⟨f, -, rfl⟩ := List.mem_map.mp ha
    obtain ⟨i, -, rfl⟩ := List.mem_map.mp hb
    exact Part.noConfusion

theorem heldBy_iff (hp : p.isTopLevel = true) : p.heldBy t = true ↔ p.DeclaredIn t := by
  refine ⟨fun h => ?_, Part.DeclaredIn.heldBy⟩
  cases p with
  | field name =>
    obtain ⟨f, hf, hpath⟩ := List.find?_isSome.mp h
    have same : Path.normal f.name = Path.normal name := eq_of_beq hpath
    refine ⟨f, List.mem_reverse.mp hf, ?_⟩
    by_contra hne
    exact normal_ne_of_ne hp hne same
  | index name =>
    obtain ⟨i, hi, hname⟩ := List.find?_isSome.mp h
    exact ⟨i, hi, eq_of_beq hname⟩

/-! ## Merges -/

/-- Whether the file has a tidy inventory of what the table declares. -/
def Matches (names : Text → Prop) (text : Text) (t : Table) : Prop :=
  ∃ v, Holds text v ∧ v.Tidy names ∧ ∀ p : Part, p.Known names → (v.Has p ↔ p.DeclaredIn t)

theorem known_of_declaredIn (hnames : ∀ i ∈ t.indexes, names i.name) (hp : p.DeclaredIn t)
    (htop : p.isTopLevel = true) : p.Known names := by
  cases p with
  | field name => exact htop
  | index name =>
    obtain ⟨i, hi, rfl⟩ := hp
    exact hnames i hi

/-- The removals of a merge take what only the code declares out of the inventory. -/
theorem becomes_afterRemovals (markers : Markers) (database : Table) (ho : Holds text v)
    (tidy : v.Tidy names) (hparts : ∀ p : Part, p.Known names → (v.Has p ↔ p.DeclaredIn code))
    (hapart : Apart names) (hremoved : '\n' ∉ markers.removed) (hcode : Mergeable code)
    (hnames : ∀ i ∈ code.indexes, names i.name) :
    Becomes names (fun p => v.Has p ∧ p ∉ unmatched code database) { text }
      (afterRemovals markers text database code) := by
  rw [← filterMap_compare.1]
  refine becomes_foldl_removeStep _ ho tidy hapart hremoved ?_ fun p hp htop => ?_
  · rw [filterMap_compare.1]
    exact hcode.nodup_partsOf.sublist sublist_unmatched
  rw [filterMap_compare.1] at hp
  have declared := (of_mem_unmatched hp).1
  have known := known_of_declaredIn hnames declared htop
  exact ⟨known, (hparts p known).mpr declared⟩

theorem matches_merge (hmatches : Matches names text code) (hapart : Apart names)
    (hadded : '\n' ∉ markers.added) (hremoved : '\n' ∉ markers.removed) (hcode : Mergeable code)
    (hdatabase : Mergeable database) (hnames : ∀ i ∈ code.indexes, names i.name)
    (hnames' : ∀ i ∈ database.indexes, names i.name) :
    Matches names (merge markers text database code).text database ∧
      SkipsNested { text } (merge markers text database code) := by
  obtain ⟨v, ho, tidy, hparts⟩ := hmatches
  obtain ⟨v₁, ho₁, tidy₁, hparts₁, hskips₁⟩ :=
    becomes_afterRemovals markers database ho tidy hparts hapart hremoved hcode hnames
  have distinct : ((database.compare code .pull).filterMap gained?).Nodup := by
    rw [filterMap_compare.2]
    exact hdatabase.nodup_partsOf.sublist sublist_unmatched
  obtain ⟨v₂, ho₂, tidy₂, hparts₂, hskips₂⟩ := becomes_foldl_addStep
    (roots .fieldAdded (database.compare code .pull)) ho₁ tidy₁ hapart hadded hdatabase.paths
    hdatabase.managed distinct fun p hp => by
      rw [filterMap_compare.2] at hp
      obtain ⟨declared, unheld⟩ := of_mem_unmatched hp
      refine ⟨declared, fun htop => ?_⟩
      have known := known_of_declaredIn hnames' declared htop
      refine ⟨known, fun hd => ?_⟩
      have held := ((hparts p known).mp ((hparts₁ p known).mp hd).1).heldBy
      rw [unheld] at held
      cases held
  rw [filterMap_compare.2] at hparts₂
  refine ⟨⟨v₂, ho₂, tidy₂, fun p hp => ?_⟩, hskips₁.trans hskips₂⟩
  refine (hparts₂ p hp).trans ⟨?_, fun hd => ?_⟩
  · rintro (hd | hd)
    · obtain ⟨hd, hkept⟩ := (hparts₁ p hp).mp hd
      refine (heldBy_iff hp.isTopLevel).mp ?_
      by_contra hnone
      exact hkept (mem_unmatched ((hparts p hp).mp hd) hp.isTopLevel (Bool.eq_false_iff.mpr hnone))
    · exact (of_mem_unmatched hd).1
  · cases hheld : p.heldBy code with
    | false => exact .inr (mem_unmatched hd hp.isTopLevel hheld)
    | true =>
      refine .inl ((hparts₁ p hp).mpr ⟨(hparts p hp).mpr ((heldBy_iff hp.isTopLevel).mp hheld), ?_⟩)
      intro hlost
      have held := hd.heldBy
      rw [(of_mem_unmatched hlost).2] at held
      cases held

theorem mem_outermost {f : Field} (hf : f ∈ t.fields) (hpath : IsPath f.name)
    (htop : Path.isTopLevel f.name = true) : f ∈ t.outermost := by
  have parent : Path.parent? f.name = none := (hpath.isTopLevel_iff.mp htop).parent?_eq_none
  refine List.mem_filter.mpr ⟨hf, ?_⟩
  rw [Table.absorbs, parent]
  rfl

/-- A generated file declares what its table does. -/
theorem matches_file (h : Mergeable t) (hapart : Apart names)
    (hnames : ∀ i ∈ t.indexes, names i.name) : Matches names (Source.file t) t := by
  have line : '\n' ∉ t.name := h.isName.not_mem (by decide)
  obtain ⟨l, htext, hfields, hfunctions, hlisted⟩ := exists_layout_file line h.managed
  have fields : l.inventory.fields = t.outermost.map Field.name := by
    refine hfields.trans ?_
    exact List.map_congr_left fun f hf => (h.paths f (List.mem_filter.mp hf).1).flatMap_escape
  have functions : l.inventory.functions = (t.indexes.map Index.name).map Source.functionOf := by
    rw [List.map_map]
    exact hfunctions
  have used : ∀ n ∈ t.indexes.map Index.name, names n := fun n hn => by
    obtain ⟨i, hi, rfl⟩ := List.mem_map.mp hn
    exact hnames i hi
  refine ⟨l.inventory, ⟨l, htext.symm, rfl⟩, ⟨?_, ?_, ⟨_, hlisted, ?_⟩, ?_⟩, fun p hp => ?_⟩
  · rw [fields]
    exact (h.nodup_fields.sublist (List.filter_sublist.map Field.name)).filter _
  · rw [functions]
    exact List.Nodup.map_on (fun a ha b hb => hapart a b (used a ha) (used b hb)) h.indexes
  · exact List.Perm.of_eq hfunctions.symm
  · intro f hf
    rw [functions] at hf
    obtain ⟨n, hn, rfl⟩ := List.mem_map.mp hf
    exact ⟨n, used n hn, rfl⟩
  · cases p with
    | field name =>
      rw [Inventory.has_field_iff hp, fields, List.mem_map]
      constructor
      · rintro ⟨f, hf, rfl⟩
        exact ⟨f, (List.mem_filter.mp hf).1, rfl⟩
      · rintro ⟨f, hf, rfl⟩
        exact ⟨f, mem_outermost hf (h.paths f hf) hp, rfl⟩
    | index name =>
      rw [Inventory.Has, functions, List.mem_map]
      constructor
      · rintro ⟨n, hn, hsame⟩
        obtain ⟨i, hi, rfl⟩ := List.mem_map.mp hn
        exact ⟨i, hi, hapart _ _ (used _ hn) hp hsame⟩
      · rintro ⟨i, hi, rfl⟩
        exact ⟨i.name, List.mem_map_of_mem hi, rfl⟩

/-! ## Sessions -/

/-- The names of the entries for fields of the table itself. -/
def fieldEntries (text : Text) : List Text :=
  ((entryTexts text).filterMap entryName?).filter Path.isTopLevel

/-- Whether a merge left nothing alone but fields inside others, and the file has an entry for each
field of the table itself, a function for each index, and the list of their definitions. -/
structure InStep (names : Text → Prop) (o : Outcome) (t : Table) : Prop where
  skipped : ∀ s ∈ o.skipped, ∃ name, s.part = .field name ∧ Path.isTopLevel name = false
  fields : (fieldEntries o.text).Perm ((t.fields.map Field.name).filter Path.isTopLevel)
  functions : ∀ n, names n → ((function? o.text (Source.functionOf n)).isSome = true ↔
    ∃ i ∈ t.indexes, i.name = n)
  definitions : ∃ listed, definitionTexts o.text = Source.definition "model" :: listed ∧
    listed.Perm (t.indexes.map fun i => Source.definition (Source.functionOf i.name))

theorem inStep_of_matches (ht : Mergeable t) (hapart : Apart names)
    (hnames : ∀ i ∈ t.indexes, names i.name) (hmatches : Matches names o.text t)
    (hskips : ∀ s ∈ o.skipped, ∃ name, s.part = .field name ∧ Path.isTopLevel name = false) :
    InStep names o t := by
  obtain ⟨v, ho, tidy, hparts⟩ := hmatches
  obtain ⟨fs, helements, hperm⟩ := tidy.listed
  have used : ∀ n ∈ t.indexes.map Index.name, names n := fun n hn => by
    obtain ⟨i, hi, rfl⟩ := List.mem_map.mp hn
    exact hnames i hi
  have functions : v.functions.Perm ((t.indexes.map Index.name).map Source.functionOf) := by
    refine (List.perm_ext_iff_of_nodup tidy.functions (List.Nodup.map_on
      (fun a ha b hb => hapart a b (used a ha) (used b hb)) ht.indexes)).mpr fun f => ?_
    rw [List.mem_map]
    constructor
    · intro hf
      obtain ⟨n, hn, rfl⟩ := tidy.known f hf
      obtain ⟨i, hi, rfl⟩ := (hparts (.index n) hn).mp hf
      exact ⟨i.name, List.mem_map_of_mem hi, rfl⟩
    · rintro ⟨n, hn, rfl⟩
      refine (hparts (.index n) (used n hn)).mpr ?_
      obtain ⟨i, hi, rfl⟩ := List.mem_map.mp hn
      exact ⟨i, hi, rfl⟩
  refine ⟨hskips, ?_, fun n hn => ho.isSome_function?_iff.trans (hparts (.index n) hn), ?_⟩
  · rw [fieldEntries, ho.filterMap_entryTexts]
    refine (List.perm_ext_iff_of_nodup tidy.fields (ht.nodup_fields.filter _)).mpr fun n => ?_
    rw [List.mem_filter, List.mem_filter, List.mem_map]
    refine and_congr_left fun htop => ?_
    rw [← Inventory.has_field_iff htop]
    exact hparts (.field n) htop
  · refine ⟨_, ho.definitionTexts_eq.trans helements, ?_⟩
    have listed := (hperm.trans functions).map Source.definition
    rwa [List.map_map, List.map_map] at listed

/-- What is left of a generated file once some tables were merged into it, one after another, and
the table that was merged last. Each merge compares a table with the one before it. -/
def session (markers : Markers) (code : Table) (databases : List Table) : Outcome × Table :=
  databases.foldl (fun s database => (merge markers s.1.text database s.2, database))
    ({ text := Source.file code }, code)

/-- Whether one of the tables has an index of the name. -/
def IndexOf (ts : List Table) (name : Text) : Prop := ∃ t ∈ ts, ∃ i ∈ t.indexes, i.name = name

theorem indexOf_iff {ts : List Table} {n : Text} :
    IndexOf ts n ↔ n ∈ ts.flatMap fun t => t.indexes.map Index.name := by
  simp [IndexOf]

instance (ts : List Table) : Decidable (Apart (IndexOf ts)) :=
  decidable_of_iff (∀ n ∈ ts.flatMap fun t : Table => t.indexes.map Index.name,
      ∀ m ∈ ts.flatMap fun t : Table => t.indexes.map Index.name,
        Source.functionOf n = Source.functionOf m → n = m)
    ⟨fun h n m hn hm => h n (indexOf_iff.mp hn) m (indexOf_iff.mp hm),
      fun h n hn m hm => h n m (indexOf_iff.mpr hn) (indexOf_iff.mpr hm)⟩

theorem session_concat (markers : Markers) (code : Table) (databases : List Table) (t : Table) :
    session markers code (databases ++ [t]) =
      (merge markers (session markers code databases).1.text t
      (session markers code databases).2, t) := by
  rw [session, List.foldl_append]
  rfl

theorem session_snd_mem (markers : Markers) (code : Table) (databases : List Table) :
    (session markers code databases).2 ∈ code :: databases := by
  induction databases using List.reverseRecOn with
  | nil => exact List.mem_cons_self
  | append_singleton databases t _ =>
    rw [session_concat]
    simp

/-- Let the tables of a session be mergeable, and let indexes with different names have different
functions. Then the file is in step with the table that was merged last, after each merge. -/
theorem inStep_session {databases merged : List Table} (hadded : '\n' ∉ markers.added)
    (hremoved : '\n' ∉ markers.removed) (ht : ∀ t ∈ code :: databases, Mergeable t)
    (hapart : Apart (IndexOf (code :: databases))) (hmerged : merged <+: databases) :
    InStep (IndexOf (code :: databases)) (session markers code merged).1
      (session markers code merged).2 := by
  have used {t : Table} (h : t ∈ code :: databases) :
      ∀ i ∈ t.indexes, IndexOf (code :: databases) i.name := fun i hi => ⟨t, h, i, hi, rfl⟩
  have last {ts : List Table} (h : ts <+: databases) :
      (session markers code ts).2 ∈ code :: databases :=
    List.mem_cons.mpr ((List.mem_cons.mp (session_snd_mem markers code ts)).imp_right (h.subset ·))
  have run : Matches (IndexOf (code :: databases)) (session markers code merged).1.text
      (session markers code merged).2 ∧ ∀ s ∈ (session markers code merged).1.skipped,
        ∃ name, s.part = .field name ∧ Path.isTopLevel name = false := by
    induction merged using List.reverseRecOn with
    | nil =>
      exact ⟨matches_file (ht code List.mem_cons_self) hapart (used List.mem_cons_self), nofun⟩
    | append_singleton ts t ih =>
      have before : ts <+: databases := (List.prefix_append ts [t]).trans hmerged
      have member : t ∈ code :: databases := List.mem_cons_of_mem _ (hmerged.subset (by simp))
      obtain ⟨hmatches, hskips⟩ := matches_merge (ih before).1 hapart hadded hremoved
        (ht _ (last before)) (ht t member) (used (last before)) (used member)
      rw [session_concat]
      exact ⟨hmatches, fun s hs => (hskips s hs).resolve_left nofun⟩
  exact inStep_of_matches (ht _ (last hmerged)) hapart (used (last hmerged)) run.1 run.2

/-- A table of posts with these fields and indexes. Outside of quotes, the default of a field would
end the list of the fields. -/
def posts (fields indexes : List Text) : Table where
  name := "post"
  fields := fields.map fun name => { name, type := "string", default := some "'\"))]); //'" }
  indexes := indexes.map fun name => { name, columns := ["title"] }

/-- Posts lose a field, the elements of another one and an index, and gain them again. -/
theorem inStep_session_posts :
    InStep (IndexOf [posts ["title", "tags", "tags.*"] ["by title"], posts ["tags"] ["model"],
        posts ["title", "tags", "tags.*"] ["by title"]])
      (session {} (posts ["title", "tags", "tags.*"] ["by title"])
        [posts ["tags"] ["model"], posts ["title", "tags", "tags.*"] ["by title"]]).1
      (posts ["title", "tags", "tags.*"] ["by title"]) :=
  inStep_session (by decide) (by decide) (by decide +kernel) (by decide) (List.prefix_refl _)

end SchemaDrift.Merge
