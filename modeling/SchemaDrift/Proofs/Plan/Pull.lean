import SchemaDrift.Files.SchemaDirectory
import SchemaDrift.Proofs.Plan.Absence
import SchemaDrift.Proofs.Text.Parts

namespace SchemaDrift

/-!
# Repeated pulls

A pull plans file changes from a database alone and applies them. It settles the directory: each
table has its source in its file, and a second pull finds nothing to do. The one thing in its way is
a table whose file is that of the module index.
-/

namespace Dict

variable {α : Type}

theorem mem_keys_iff {d : Dict α} {key : Text} : key ∈ d.keys ↔ (d.get? key).isSome = true := by
  rw [keys, get?, Option.isSome_map, find?_key_isSome_iff]

def erase (d : Dict α) (key : Text) : Dict α := d.filter fun k _ => k != key

@[simp] theorem get?_erase (d : Dict α) (key k : Text) :
    (d.erase key).get? k = if key = k then none else d.get? k := by
  have found : (d.entries.filter fun e => e.1 != key).find? (·.1 == k) =
      if (k != key) = true then d.entries.find? (·.1 == k) else none :=
    find?_filter_key d.entries (· != key) k
  rw [get?, erase, filter, found]
  by_cases h : key = k
  · simp [h]
  · simp [h, Ne.symm h, get?]

theorem erase_eq_self {d : Dict α} {key : Text} (h : d.contains key = false) : d.erase key = d := by
  apply Dict.ext
  apply List.filter_eq_self.mpr
  intro e he
  have hne : e.1 ≠ key := by
    rintro rfl
    have hmem : e.1 ∈ d.keys := List.mem_map_of_mem he
    rw [mem_keys_iff, ← contains, h] at hmem
    cases hmem
  simpa using hne

end Dict

namespace FileChange

/-- What a change leaves of a file: nothing, the planned text, or what was there. -/
def result (c : FileChange) (current : Option Text) : Option Text :=
  match c.action, c.content with
  | .delete, _ => none
  | _, some content => some content
  | _, none => current

/-- What a change makes of the files of a directory. -/
def applyTo (c : FileChange) (files : Dict Text) : Dict Text :=
  match c.action, c.content with
  | .delete, _ => files.erase c.file
  | _, some content => files.insert c.file content
  | _, none => files

theorem get?_applyTo (c : FileChange) (files : Dict Text) (k : Text) :
    (c.applyTo files).get? k = if c.file = k then c.result (files.get? k) else files.get? k := by
  unfold applyTo result
  split
  · exact Dict.get?_erase files c.file k
  · exact Dict.get?_insert files c.file k _
  · exact (ite_self _).symm

end FileChange

namespace Dict

/-- What changes make of the files of a directory, one after the other. -/
def update (files : Dict Text) (changes : List FileChange) : Dict Text :=
  changes.foldl (fun files c => c.applyTo files) files

theorem get?_update_of_not_mem {changes : List FileChange} {k : Text}
    (h : k ∉ changes.map FileChange.file) (files : Dict Text) :
    (files.update changes).get? k = files.get? k := by
  induction changes generalizing files with
  | nil => rfl
  | cons c cs ih =>
    rw [List.map_cons, List.mem_cons, not_or] at h
    have step : (files.update (c :: cs)).get? k = (c.applyTo files).get? k := ih h.2 _
    rw [step, FileChange.get?_applyTo, if_neg (Ne.symm h.1)]

/-- A file with one change alone is left as this change leaves it. -/
theorem get?_update_of_mem {changes : List FileChange} (h : (changes.map FileChange.file).Nodup)
    {c : FileChange} (hc : c ∈ changes) (files : Dict Text) :
    (files.update changes).get? c.file = c.result (files.get? c.file) := by
  induction changes generalizing files with
  | nil => cases hc
  | cons d ds ih =>
    obtain ⟨hd, hds⟩ := List.nodup_cons.mp h
    rcases List.mem_cons.mp hc with rfl | hc
    · have rest : (files.update (c :: ds)).get? c.file = (c.applyTo files).get? c.file :=
        get?_update_of_not_mem hd _
      rw [rest, FileChange.get?_applyTo, if_pos rfl]
    · have hne : d.file ≠ c.file := fun he => hd (List.mem_map.mpr ⟨c, hc, he.symm⟩)
      have step : (files.update (d :: ds)).get? c.file = c.result ((d.applyTo files).get? c.file) :=
        ih hds hc _
      rw [step, FileChange.get?_applyTo, if_neg hne]

end Dict

/-! ## A directory of files -/

namespace Dict

variable {α β : Type}

theorem insertEntry_map (f : α → β) (key : Text) (value : α) (l : List (Text × α)) :
    insertEntry key (f value) (l.map fun e => (e.1, f e.2)) =
      (insertEntry key value l).map fun e => (e.1, f e.2) := by
  induction l with
  | nil => rfl
  | cons e l ih =>
    simp only [List.map_cons, insertEntry]
    split
    · rfl
    · split
      · rfl
      · rw [List.map_cons, ih]

end Dict

namespace FileSystem

/-- The file system whose working directory holds these files and nothing else. -/
def ofFiles (files : Dict Text) : FileSystem :=
  { root := .directory (files.map Tree.file).entries, working := [] }

/-- Whether a file of this name can stand in a directory. -/
structure IsFileName (name : Text) : Prop where
  plain : SchemaDirectory.isPlain name = true
  noNul : '\x00' ∉ name
  short : FilePath.byteLength name ≤ 255

instance (name : Text) : Decidable (IsFileName name) :=
  decidable_of_iff (SchemaDirectory.isPlain name = true ∧ '\x00' ∉ name ∧
    FilePath.byteLength name ≤ 255) ⟨fun ⟨hp, hn, hs⟩ => ⟨hp, hn, hs⟩, fun h => ⟨h.1, h.2, h.3⟩⟩

variable {name : Text} {files : Dict Text}

theorem child?_map_file (files : Dict Text) (name : Text) :
    Tree.child? name (files.map Tree.file).entries = (files.get? name).map Tree.file := by
  rw [Tree.child?, Dict.map, List.find?_map, Dict.get?, Option.map_map, Option.map_map]
  rfl

theorem ofFiles_insert (files : Dict Text) (name text : Text) :
    Dict.insertEntry name (.file text) (files.map Tree.file).entries =
      ((files.insert name text).map Tree.file).entries :=
  Dict.insertEntry_map Tree.file name text files.entries

theorem ofFiles_erase (files : Dict Text) (name : Text) :
    (files.map Tree.file).entries.filter (·.1 != name) =
      ((files.erase name).map Tree.file).entries := by
  rw [Dict.map, List.filter_map]
  rfl

namespace IsFileName

theorem ne_nil (h : IsFileName name) : name ≠ [] := by
  rintro rfl
  exact absurd h.plain (by decide)

theorem not_slash (h : IsFileName name) : '/' ∉ name := by
  have := h.plain
  simp only [SchemaDirectory.isPlain, Bool.and_eq_true, Bool.not_eq_true'] at this
  simpa using this.1.2

theorem ofText_eq (h : IsFileName name) :
    FilePath.ofText name =
      { isAbsolute := false, steps := [.into name], endsInSlash := false } := by
  have parts := Text.splitOn_of_not_mem h.not_slash
  have into : PathStep.ofPart name = .into name := by
    have := h.plain
    simp only [SchemaDirectory.isPlain, Bool.and_eq_true, Bool.not_eq_true', bne_iff_ne] at this
    rw [PathStep.ofPart, if_neg this.1.1.1.2, if_neg this.1.1.2]
  have first : (name.head? == some '/') = false := by
    apply beq_eq_false_iff_ne.mpr
    exact fun he => h.not_slash (List.mem_of_mem_head? he)
  have last : (name.getLast? == some '/') = false := by
    apply beq_eq_false_iff_ne.mpr
    exact fun he => h.not_slash (List.mem_of_mem_getLast? he)
  rw [FilePath.ofText, parts, first, last, List.filter_cons_of_pos (by simpa using h.ne_nil)]
  simp [into]

theorem isTooLong_eq (h : IsFileName name) : Tree.isTooLong name = false := by
  have := h.short
  simp only [Tree.isTooLong, decide_eq_false_iff_not]
  omega

theorem start_eq (h : IsFileName name) (files : Dict Text) : (ofFiles files).start name =
    .ok ([], { isAbsolute := false, steps := [.into name], endsInSlash := false }) := by
  have fault : FilePath.fault? name = none := by
    have short : ¬4095 < FilePath.byteLength name := by
      have := h.short
      omega
    rw [FilePath.fault?, if_neg (by simpa using h.noNul), if_neg (by simpa using h.ne_nil),
      if_neg short]
  rw [start, fault]
  dsimp only
  rw [h.ofText_eq]
  rfl

theorem target_eq (h : IsFileName name) (files : Dict Text) : (ofFiles files).target name =
    .ok { trail := [], entries := (files.map Tree.file).entries, name? := some name,
          endsInSlash := false } := by
  rw [target, h.start_eq]
  rfl

theorem follow_eq (h : IsFileName name) (files : Dict Text) :
    (ofFiles files).follow [] [.into name] =
      (files.get? name).elim (.error .notFound) fun text => .ok [(name, .file text)] := by
  have here : (ofFiles files).here [] = .directory (files.map Tree.file).entries := rfl
  have child := child?_map_file files name
  cases hget : files.get? name with
  | none =>
    rw [hget, Option.map_none] at child
    simp only [follow, here, h.isTooLong_eq, child]
    rfl
  | some text =>
    rw [hget, Option.map_some] at child
    simp only [follow, here, h.isTooLong_eq, child]
    rfl

theorem kind?_eq (h : IsFileName name) (files : Dict Text) :
    (ofFiles files).kind? name = if files.contains name then some .file else none := by
  have found : (ofFiles files).find name =
      (files.get? name).elim (.error .notFound) fun text => .ok (.file text) := by
    rw [find, h.start_eq]
    change (follow (ofFiles files) [] [.into name]).bind _ = _
    rw [h.follow_eq]
    cases files.get? name <;> rfl
  rw [kind?, found, Dict.contains]
  cases files.get? name <;> rfl

theorem write_eq (h : IsFileName name) (files : Dict Text) (text : Text) :
    (ofFiles files).write name text = .ok (ofFiles (files.insert name text)) := by
  rw [write, h.target_eq]
  change (if Tree.isTooLong name = true then _ else _) = _
  rw [h.isTooLong_eq, child?_map_file, ofFiles, ofFiles, ← ofFiles_insert]
  cases files.get? name <;> rfl

theorem remove_eq (h : IsFileName name) {files : Dict Text} (hn : files.contains name = true) :
    (ofFiles files).remove name = .ok (ofFiles (files.erase name)) := by
  obtain ⟨text, htext⟩ := Option.isSome_iff_exists.mp hn
  rw [remove, h.target_eq]
  change (if Tree.isTooLong name = true then _ else _) = _
  rw [h.isTooLong_eq, child?_map_file, htext, ofFiles, ofFiles, ← ofFiles_erase]
  rfl

end IsFileName

end FileSystem

namespace FileChange

/-- Whether a change has a text to write, unless it is one that needs none. -/
def IsComplete (c : FileChange) : Prop := c.action = .create ∨ c.action = .update → c.content.isSome

end FileChange

namespace SchemaDirectory

open FileSystem

/-- The program part that works on files and can fail. -/
abbrev Work := ExceptT Failure (StateM FileSystem)

theorem run_bind {α β : Type} {x : Work α} {s s' : FileSystem} {a : α}
    (h : x.run s = (.ok a, s')) (f : α → Work β) : (x >>= f).run s = (f a).run s' := by
  change (x.run >>= ExceptT.bindCont f) s = _
  change ExceptT.bindCont f (x.run s).1 (x.run s).2 = _
  rw [h]
  rfl

theorem run_contains {name : Text} (h : IsFileName name) (files : Dict Text) :
    (MonadFiles.contains name : Work Bool).run (ofFiles files) =
      (.ok (files.contains name), ofFiles files) := by
  change (Except.ok ((ofFiles files).kind? name).isSome, ofFiles files) = _
  rw [h.kind?_eq]
  cases files.contains name <;> rfl

theorem run_write {name : Text} (h : IsFileName name) (files : Dict Text) (text : Text) :
    (MonadFiles.write name text : Work (Except IoError Unit)).run (ofFiles files) =
      (.ok (.ok ()), ofFiles (files.insert name text)) := by
  change (Except.ok (attempt (·.write name text) (ofFiles files)).1,
    (attempt (·.write name text) (ofFiles files)).2) = _
  rw [attempt, h.write_eq]

theorem run_remove {name : Text} (h : IsFileName name) {files : Dict Text}
    (hn : files.contains name = true) :
    (MonadFiles.remove name : Work (Except IoError Unit)).run (ofFiles files) =
      (.ok (.ok ()), ofFiles (files.erase name)) := by
  change (Except.ok (attempt (·.remove name) (ofFiles files)).1,
    (attempt (·.remove name) (ofFiles files)).2) = _
  rw [attempt, h.remove_eq hn]

/-- A change that is applied to a directory of files makes of them what is said of it. -/
theorem applyOne_eq {c : FileChange} (hname : IsFileName c.file) (hc : c.IsComplete)
    (files : Dict Text) : ∃ count, (applyOne [] c : Work Nat).run (ofFiles files) =
      (.ok count, ofFiles (c.applyTo files)) := by
  have path : join [] c.file = c.file := rfl
  have found := run_contains hname files
  have write (text : Text) : (do
      Failure.lift .io (← MonadFiles.write c.file text)
      return 1 : Work Nat).run (ofFiles files) =
        (.ok 1, ofFiles (files.insert c.file text)) := run_bind (run_write hname files text) _
  unfold applyOne
  rw [if_pos hname.plain, path]
  cases hd : c.action with
  | delete =>
    have applied : c.applyTo files = files.erase c.file := by rw [FileChange.applyTo, hd]
    rw [applied]
    cases hn : files.contains c.file with
    | true =>
      rw [hn] at found
      exact ⟨1, (run_bind found _).trans (run_bind (run_remove hname hn) _)⟩
    | false =>
      rw [hn] at found
      rw [Dict.erase_eq_self hn]
      exact ⟨0, run_bind found _⟩
  | create =>
    obtain ⟨text, htext⟩ := Option.isSome_iff_exists.mp (hc (.inl hd))
    rw [FileChange.applyTo, hd, htext]
    exact ⟨1, write text⟩
  | update =>
    obtain ⟨text, htext⟩ := Option.isSome_iff_exists.mp (hc (.inr hd))
    rw [FileChange.applyTo, hd, htext]
    exact ⟨1, write text⟩
  | merge =>
    cases htext : c.content with
    | none =>
      rw [FileChange.applyTo, hd, htext]
      exact ⟨0, rfl⟩
    | some text =>
      rw [FileChange.applyTo, hd, htext]
      exact ⟨1, write text⟩

/-- Changes that are applied to a directory of files make of them what is said of them. -/
theorem apply_eq {changes : List FileChange}
    (h : ∀ c ∈ changes, IsFileName c.file ∧ c.IsComplete) (files : Dict Text) :
    ∃ count, (apply [] changes : Work Nat).run (ofFiles files) =
      (.ok count, ofFiles (files.update changes)) := by
  have fold (start : Nat) : ∃ count,
      (changes.foldlM (fun count c => return count + (← applyOne [] c)) start : Work Nat).run
        (ofFiles files) = (.ok count, ofFiles (files.update changes)) := by
    induction changes generalizing files start with
    | nil => exact ⟨start, rfl⟩
    | cons c cs ih =>
      obtain ⟨⟨hname, hc⟩, hcs⟩ := List.forall_mem_cons.mp h
      obtain ⟨touched, hone⟩ := applyOne_eq hname hc files
      obtain ⟨count, hrest⟩ := ih hcs (c.applyTo files) (start + touched)
      refine ⟨count, ?_⟩
      rw [List.foldlM_cons]
      have step : (do return start + (← applyOne [] c) : Work Nat).run (ofFiles files) =
          (.ok (start + touched), ofFiles (c.applyTo files)) := run_bind hone _
      exact (run_bind step _).trans hrest
  obtain ⟨count, hfold⟩ := fold 0
  have made : (MonadFiles.makeDirectories [] : Work (Except IoError Unit)).run (ofFiles files) =
      (.ok (.ok ()), ofFiles files) := rfl
  exact ⟨count, (run_bind made _).trans hfold⟩

end SchemaDirectory

/-! ## Plans from a database alone -/

namespace Source

theorem fileOf_inj {a b : Text} : fileOf a = fileOf b ↔ a = b := List.append_left_inj _

theorem fileOf_eq_indexFile_iff {t : Text} : fileOf t = indexFile ↔ t = "mod" :=
  fileOf_inj (b := "mod")

/-- A file that counts as the file of a table is the file of this table. -/
theorem eq_fileOf_of_tableOf? {file table : Text} (h : tableOf? file = some table) :
    file = fileOf table := by
  unfold tableOf? at h
  split at h
  · cases h
  · exact Text.stripEnd_eq_some_iff.mp (Option.filter_eq_some_iff.mp h).1

theorem file_ne_modules (t : Table) (s : Schema) : file t ≠ modules s := by
  have table : (file t).take 5 = "//! T" := rfl
  have index : (modules s).take 5 = "//! G" := rfl
  intro h
  rw [h, index] at table
  exact absurd table (by decide)

end Source

namespace Plan

variable {database : Schema} {existing : Dict Text} {options : PlanOptions} {c : FileChange}

/-- The change that writes a text into a file, unless the file holds it. -/
def writing? (existing : Dict Text) (file : Text) (table : Option Text) (text : Text) :
    Option FileChange :=
  if existing.get? file = some text then none
  else
    some {
      file
      table
      action := if (existing.get? file).isSome then .update else .create
      content := some text }

theorem tableChange?_eq_writing? (markers : Merge.Markers) (t : Table) :
    tableChange? existing none markers t =
      writing? existing (Source.fileOf t.name) t.name (Source.file t) := by
  unfold tableChange? writing?
  dsimp only
  cases existing.get? (Source.fileOf t.name) with
  | none => simp
  | some current =>
    by_cases h : current = Source.file t
    · simp [h]
    · simp [h]

theorem indexChange?_eq_writing? : indexChange? database existing =
    writing? existing Source.indexFile none (Source.modules database) := by
  unfold indexChange? writing?
  dsimp only
  cases existing.get? Source.indexFile with
  | none => simp
  | some current =>
    by_cases h : current = Source.modules database
    · simp [h]
    · simp [h]

theorem writing?_eq_none_iff {file text : Text} (table : Option Text) :
    writing? existing file table text = none ↔ existing.get? file = some text := by
  simp [writing?]

theorem of_writing? {file text : Text} {table : Option Text}
    (h : writing? existing file table text = some c) :
    c.file = file ∧ (∀ current, c.result current = some text) ∧ c.IsComplete := by
  unfold writing? at h
  split at h
  · cases h
  · cases h
    refine ⟨rfl, fun current => ?_, fun _ => rfl⟩
    cases (existing.get? file).isSome <;> rfl

/-- A plan from a database alone writes the files of the tables, deletes the files of other tables
and writes the index of the modules. -/
theorem mem_plan_none : c ∈ plan database existing none options ↔
    (∃ t ∈ database.tables,
      writing? existing (Source.fileOf t.name) t.name (Source.file t) = some c) ∨
    (∃ file ∈ existing.keys, deletion? database file = some c) ∨
      (options.index = true ∧
        writing? existing Source.indexFile none (Source.modules database) = some c) := by
  rw [mem_plan, indexChange?_eq_writing?]
  simp only [tableChange?_eq_writing?]

theorem isComplete_of_mem_plan (h : c ∈ plan database existing none options) : c.IsComplete := by
  rcases mem_plan_none.mp h with ⟨t, -, ht⟩ | ⟨file, -, hdel⟩ | ⟨-, hindex⟩
  · exact (of_writing? ht).2.2
  · rw [FileChange.IsComplete, (of_deletion? hdel).1]
    rintro (h | h) <;> cases h
  · exact (of_writing? hindex).2.2

theorem deletion?_eq_none_iff {file : Text} : deletion? database file = none ↔
    ∀ table, Source.tableOf? file = some table → (database.table? table).isSome = true := by
  unfold deletion?
  cases Source.tableOf? file with
  | none => simp
  | some table => simp [Option.ne_none_iff_isSome]

/-- Whether the files are as the database wants them: the tables have their sources in their files,
no other table has a file, and the index of the modules is there if it is planned. -/
structure InPlace (database : Schema) (options : PlanOptions) (files : Dict Text) : Prop where
  tables : ∀ t ∈ database.tables, files.get? (Source.fileOf t.name) = some (Source.file t)
  others : ∀ file ∈ files.keys, ∀ table, Source.tableOf? file = some table →
    (database.table? table).isSome = true
  index : options.index = true →
    files.get? Source.indexFile = some (Source.modules database)

/-- There is nothing to do just if the files are in place. -/
theorem plan_eq_nil_iff :
    plan database existing none options = [] ↔ InPlace database options existing := by
  have absent {file text : Text} {table : Option Text} :
      (∀ c, writing? existing file table text ≠ some c) ↔ existing.get? file = some text := by
    rw [← writing?_eq_none_iff table, Option.eq_none_iff_forall_ne_some]
  rw [List.eq_nil_iff_forall_not_mem]
  simp only [mem_plan_none, not_or, not_exists, not_and, forall_and]
  constructor
  · rintro ⟨htables, hothers, hindex⟩
    exact ⟨fun t ht => absent.mp fun c => htables c t ht,
      fun file hfile => deletion?_eq_none_iff.mp
        (Option.eq_none_iff_forall_ne_some.mpr fun c => hothers c file hfile),
      fun h => absent.mp fun c => hindex c h⟩
  · intro h
    exact ⟨fun c t ht => absent.mpr (h.tables t ht) c,
      fun c file hfile => Option.eq_none_iff_forall_ne_some.mp
        (deletion?_eq_none_iff.mpr (h.others file hfile)) c,
      fun c ho => absent.mpr (h.index ho) c⟩

/-! ## Files of a plan -/

theorem sublist_map_filterMap {α : Type} (key : α → Text) {change? : α → Option FileChange}
    (h : ∀ a c, change? a = some c → c.file = key a) (l : List α) :
    ((l.filterMap change?).map FileChange.file).Sublist (l.map key) := by
  induction l with
  | nil => exact .slnil
  | cons a l ih =>
    rw [List.map_cons, List.filterMap_cons]
    cases ha : change? a with
    | none => exact ih.cons _
    | some c =>
      rw [List.map_cons, h a c ha]
      exact ih.cons_cons _

/-- Whether a table and the index of the modules both have their file written. -/
def Clash (database : Schema) (existing : Dict Text) (options : PlanOptions) : Prop :=
  options.index = true ∧ existing.get? Source.indexFile ≠ some (Source.modules database) ∧
    ∃ t ∈ database.tables, t.name = "mod" ∧
      existing.get? Source.indexFile ≠ some (Source.file t)

/-- The part of a plan that is about the files of tables. -/
def front (database : Schema) (existing : Dict Text) (options : PlanOptions) : List FileChange :=
  database.tables.filterMap (tableChange? existing none options.markers) ++
    existing.keys.filterMap (deletion? database)

theorem nodup_files_front (h : (database.tables.map Table.name).Nodup) (existing : Dict Text)
    (options : PlanOptions) :
    ((front database existing options).map FileChange.file).Nodup := by
  rw [front, List.map_append, List.nodup_append]
  refine ⟨?_, ?_, ?_⟩
  · refine (sublist_map_filterMap (fun t => Source.fileOf t.name) ?_ _).nodup ?_
    · intro t c hc
      rw [tableChange?_eq_writing?] at hc
      exact (of_writing? hc).1
    · have files := h.map (f := Source.fileOf) fun a b hab => Source.fileOf_inj.mp hab
      rwa [List.map_map] at files
  · refine (sublist_map_filterMap id ?_ _).nodup ?_
    · exact fun file c hc => (of_deletion? hc).2.1
    · rw [List.map_id]
      exact existing.nodup_keys
  · simp only [List.mem_map, List.mem_filterMap]
    rintro _ ⟨c, ⟨t, ht, hc⟩, rfl⟩ _ ⟨d, ⟨file, -, hd⟩, rfl⟩ he
    rw [tableChange?_eq_writing?] at hc
    obtain ⟨-, rfl, table, htable, hnone⟩ := of_deletion? hd
    rw [(of_writing? hc).1, Source.eq_fileOf_of_tableOf? htable, Source.fileOf_inj] at he
    have found : (database.table? t.name).isSome = true :=
      find?_key_isSome_iff.mpr (List.mem_map_of_mem ht)
    rw [he, hnone] at found
    cases found

theorem index_mem_files_front_iff (database : Schema) (existing : Dict Text)
    (options : PlanOptions) :
    Source.indexFile ∈ (front database existing options).map FileChange.file ↔
      ∃ t ∈ database.tables, t.name = "mod" ∧
        existing.get? Source.indexFile ≠ some (Source.file t) := by
  simp only [front, List.map_append, List.mem_append, List.mem_map, List.mem_filterMap]
  constructor
  · rintro (⟨c, ⟨t, ht, hc⟩, hfile⟩ | ⟨d, ⟨file, -, hd⟩, hfile⟩)
    · rw [tableChange?_eq_writing?] at hc
      rw [(of_writing? hc).1] at hfile
      refine ⟨t, ht, Source.fileOf_eq_indexFile_iff.mp hfile, fun he => ?_⟩
      rw [← hfile] at he
      rw [(writing?_eq_none_iff _).mpr he] at hc
      cases hc
    · obtain ⟨-, rfl, table, htable, -⟩ := of_deletion? hd
      rw [hfile] at htable
      cases htable
  · rintro ⟨t, ht, hname, hdiffers⟩
    rw [← Source.fileOf_eq_indexFile_iff] at hname
    obtain ⟨c, hc⟩ := Option.ne_none_iff_exists'.mp fun hnone =>
      hdiffers (hname ▸ (writing?_eq_none_iff (some t.name)).mp hnone)
    refine .inl ⟨c, ⟨t, ht, ?_⟩, ?_⟩
    · rw [tableChange?_eq_writing?, hc]
    · rw [(of_writing? hc).1, hname]

/-- The changes of a plan name different files, unless a table and the index of the modules both
have their file written. -/
theorem nodup_files_iff (h : (database.tables.map Table.name).Nodup) :
    ((plan database existing none options).map FileChange.file).Nodup ↔
      ¬Clash database existing options := by
  have hfront := nodup_files_front h existing options
  rw [Clash]
  by_cases hindex : options.index = true ∧
      existing.get? Source.indexFile ≠ some (Source.modules database)
  · obtain ⟨ho, hdiffers⟩ := hindex
    obtain ⟨c, hc⟩ := Option.ne_none_iff_exists'.mp fun hnone =>
      hdiffers ((writing?_eq_none_iff none).mp hnone)
    have whole : plan database existing none options = front database existing options ++ [c] := by
      rw [plan, if_pos ho, indexChange?_eq_writing?, hc]
      rfl
    have last : c.file = Source.indexFile := (of_writing? hc).1
    rw [whole, List.map_append, List.map_singleton, last, List.nodup_append]
    simp only [hfront, ho, hdiffers, List.nodup_singleton, true_and, List.mem_singleton, forall_eq,
      ne_eq, not_false_eq_true]
    rw [← index_mem_files_front_iff database existing options]
    exact ⟨fun hne hmem => hne _ hmem rfl, fun hnot a ha he => hnot (he ▸ ha)⟩
  · have whole : plan database existing none options = front database existing options := by
      have nothing :
          (if options.index = true then (indexChange? database existing).toList else []) = [] := by
        split
        · rename_i ho
          have same := not_not.mp (not_and.mp hindex ho)
          rw [indexChange?_eq_writing?, (writing?_eq_none_iff _).mpr same]
          rfl
        · rfl
      rw [plan, nothing, List.append_nil, front]
    rw [whole]
    exact iff_of_true hfront fun hclash => hindex ⟨hclash.1, hclash.2.1⟩

/-! ## What a pull leaves -/

/-- What the changes of a plan from a database alone leave in their files. -/
theorem result_cases (h : c ∈ plan database existing none options) :
    (∃ t ∈ database.tables, c.file = Source.fileOf t.name ∧
      ∀ current, c.result current = some (Source.file t)) ∨
    (∃ table, Source.tableOf? c.file = some table ∧ database.table? table = none ∧
      ∀ current, c.result current = none) ∨
    (options.index = true ∧ c.file = Source.indexFile ∧
      ∀ current, c.result current = some (Source.modules database)) := by
  rcases mem_plan_none.mp h with ⟨t, ht, hc⟩ | ⟨file, -, hdel⟩ | ⟨ho, hc⟩
  · exact .inl ⟨t, ht, (of_writing? hc).1, (of_writing? hc).2.1⟩
  · obtain ⟨hdelete, rfl, table, htable, hnone⟩ := of_deletion? hdel
    refine .inr (.inl ⟨table, htable, hnone, fun current => ?_⟩)
    rw [FileChange.result, hdelete]
  · exact .inr (.inr ⟨ho, (of_writing? hc).1, (of_writing? hc).2.1⟩)

/-- A file that a plan writes holds the planned text after the changes, whether it had to be changed
or not. -/
theorem get?_update_of_writing {file text : Text} {table : Option Text}
    (h : ((plan database existing none options).map FileChange.file).Nodup)
    (hplanned : ∀ c, writing? existing file table text = some c →
      c ∈ plan database existing none options)
    (hown : ∀ c ∈ plan database existing none options, c.file = file →
      ∀ current, c.result current = some text) :
    (existing.update (plan database existing none options)).get? file = some text := by
  by_cases hmem : file ∈ (plan database existing none options).map FileChange.file
  · obtain ⟨c, hc, rfl⟩ := List.mem_map.mp hmem
    rw [Dict.get?_update_of_mem h hc]
    exact hown c hc rfl _
  · rw [Dict.get?_update_of_not_mem hmem, ← writing?_eq_none_iff table]
    apply Option.eq_none_iff_forall_ne_some.mpr
    intro c hc
    exact hmem (List.mem_map.mpr ⟨c, hplanned c hc, (of_writing? hc).1⟩)

/-- The file of a table that the database does not have is deleted. -/
theorem table?_isSome_of_mem_update {file table : Text}
    (hn : ((plan database existing none options).map FileChange.file).Nodup)
    (hfile : file ∈ (existing.update (plan database existing none options)).keys)
    (htable : Source.tableOf? file = some table) : (database.table? table).isSome = true := by
  by_contra hsome
  have hnone := Option.not_isSome_iff_eq_none.mp hsome
  rw [Dict.mem_keys_iff] at hfile
  by_cases hmem : file ∈ (plan database existing none options).map FileChange.file
  · obtain ⟨c, hc, rfl⟩ := List.mem_map.mp hmem
    rw [Dict.get?_update_of_mem hn hc] at hfile
    rcases result_cases hc with ⟨t, ht, hfile', -⟩ | ⟨-, -, -, hresult⟩ | ⟨-, hindex, -⟩
    · have same := Source.fileOf_inj.mp (hfile'.symm.trans (Source.eq_fileOf_of_tableOf? htable))
      exact hsome (same ▸ find?_key_isSome_iff.mpr (List.mem_map_of_mem ht))
    · rw [hresult] at hfile
      cases hfile
    · rw [hindex] at htable
      cases htable
  · rw [Dict.get?_update_of_not_mem hmem, ← Dict.mem_keys_iff] at hfile
    obtain ⟨c, hc⟩ := Option.ne_none_iff_exists'.mp fun hkept =>
      hsome (deletion?_eq_none_iff.mp hkept table htable)
    have hplanned : c ∈ plan database existing none options :=
      mem_plan_none.mpr (.inr (.inl ⟨file, hfile, hc⟩))
    exact hmem (List.mem_map.mpr ⟨c, hplanned, (of_deletion? hc).2.1⟩)

/-- After the changes of a plan the files are in place, if no table has the file of the index. -/
theorem inPlace_update (h : (database.tables.map Table.name).Nodup)
    (hfree : options.index = true → database.table? "mod" = none) :
    InPlace database options (existing.update (plan database existing none options)) := by
  have found {t : Table} (ht : t ∈ database.tables) : (database.table? t.name).isSome = true :=
    find?_key_isSome_iff.mpr (List.mem_map_of_mem ht)
  have apart (ho : options.index = true) {t : Table} (ht : t ∈ database.tables) :
      Source.fileOf t.name ≠ Source.indexFile := by
    intro he
    have hmod := found ht
    rw [Source.fileOf_eq_indexFile_iff.mp he, hfree ho] at hmod
    cases hmod
  have hn : ((plan database existing none options).map FileChange.file).Nodup := by
    refine (nodup_files_iff h).mpr ?_
    rintro ⟨ho, -, t, ht, hmod, -⟩
    exact apart ho ht (Source.fileOf_eq_indexFile_iff.mpr hmod)
  constructor
  case tables =>
    intro t ht
    refine get?_update_of_writing hn (fun c hc => mem_plan_none.mpr (.inl ⟨t, ht, hc⟩)) ?_
    intro c hc hfile
    rcases result_cases hc with
      ⟨t', ht', hfile', hresult⟩ | ⟨table, htable, hnone, -⟩ | ⟨ho, hindex, -⟩
    · have same := Source.fileOf_inj.mp (hfile.symm.trans hfile')
      rwa [List.inj_on_of_nodup_map h ht ht' same]
    · have same := Source.fileOf_inj.mp (hfile.symm.trans (Source.eq_fileOf_of_tableOf? htable))
      have hsome := found ht
      rw [same, hnone] at hsome
      cases hsome
    · exact absurd (hfile.symm.trans hindex) (apart ho ht)
  case others => exact fun _ hfile _ htable => table?_isSome_of_mem_update hn hfile htable
  case index =>
    intro ho
    refine get?_update_of_writing hn (fun c hc => mem_plan_none.mpr (.inr (.inr ⟨ho, hc⟩))) ?_
    intro c hc hfile
    rcases result_cases hc with ⟨t, ht, hfile', -⟩ | ⟨table, htable, -, -⟩ | ⟨-, -, hresult⟩
    · exact absurd (hfile'.symm.trans hfile) (apart ho ht)
    · rw [hfile] at htable
      cases htable
    · exact hresult

/-- No files are in place if a table and the index of the modules want the same file. -/
theorem not_inPlace (ho : options.index = true) (hmod : database.table? "mod" ≠ none)
    (files : Dict Text) : ¬InPlace database options files := by
  intro h
  obtain ⟨t, ht⟩ := Option.ne_none_iff_exists'.mp hmod
  obtain ⟨hmem, hname⟩ := find?_key_eq_some ht
  have source := h.tables t hmem
  rw [Source.fileOf_eq_indexFile_iff.mpr hname, h.index ho] at source
  exact Source.file_ne_modules t database (Option.some.inj source).symm

/-- When a second pull finds nothing to do: always, unless the index of the modules is planned and
there is a table whose file it takes. The changes of a pull name different files unless both have
this file written. In a directory that can hold files of these names, the changes are applied
without a failure and make of the files what is said here. -/
theorem pull_twice {database : Schema} (h : (database.tables.map Table.name).Nodup)
    (existing : Dict Text) (options : PlanOptions) :
    (plan database (existing.update (plan database existing none options)) none options = [] ↔
      (options.index = true → database.table? "mod" = none)) ∧
    (((plan database existing none options).map FileChange.file).Nodup ↔
      ¬Clash database existing options) ∧
    ((∀ c ∈ plan database existing none options, FileSystem.IsFileName c.file) →
      ∃ count, (SchemaDirectory.apply [] (plan database existing none options) :
          SchemaDirectory.Work Nat).run (.ofFiles existing) =
        (.ok count, .ofFiles (existing.update (plan database existing none options)))) := by
  refine ⟨?_, nodup_files_iff h, fun hnames => ?_⟩
  · rw [plan_eq_nil_iff]
    constructor
    · intro hplace ho
      by_contra hmod
      exact not_inPlace ho hmod _ hplace
    · exact inPlace_update h
  · exact SchemaDirectory.apply_eq (fun c hc => ⟨hnames c hc, isComplete_of_mem_plan hc⟩) existing

/-- A database with a table called like the file of the index. -/
def modular : Schema := ⟨[{ name := "mod" }, { name := "post" }]⟩

/-- A directory with a file for one of its tables, a file for another table and a file for none. -/
def littered : Dict Text := .ofList [("post.rs", "// mine"), ("old.rs", ""), ("notes.txt", "")]

theorem pull_twice_modular : (modular.tables.map Table.name).Nodup ∧
    plan modular (littered.update (plan modular littered none {})) none {} = [] ∧
    ((plan modular littered none {}).map FileChange.file).Nodup ∧
    ∃ count, (SchemaDirectory.apply [] (plan modular littered none {}) :
        SchemaDirectory.Work Nat).run (.ofFiles littered) =
      (.ok count, .ofFiles (littered.update (plan modular littered none {}))) := by
  have names : (modular.tables.map Table.name).Nodup := by decide
  obtain ⟨again, apart, applied⟩ := pull_twice names littered {}
  refine ⟨names, again.mpr (by decide), apart.mpr (fun hclash => by cases hclash.1), applied ?_⟩
  have tables : ∀ t ∈ modular.tables, FileSystem.IsFileName (Source.fileOf t.name) := by decide
  have files : ∀ file ∈ littered.keys, FileSystem.IsFileName file := by decide
  intro c hc
  rcases mem_plan_none.mp hc with ⟨t, ht, hwrite⟩ | ⟨file, hfile, hdel⟩ | ⟨ho, -⟩
  · rw [(of_writing? hwrite).1]
    exact tables t ht
  · rw [(of_deletion? hdel).2.1]
    exact files file hfile
  · cases ho

/-- With the index of the modules, two changes of a pull name one file, and a second pull finds
something to do. -/
theorem not_pull_twice :
    ¬∀ (database : Schema) (existing : Dict Text) (options : PlanOptions),
      (database.tables.map Table.name).Nodup → (∀ t ∈ database.tables, t.name ≠ []) →
        ((plan database existing none options).map FileChange.file).Nodup ∧
        plan database (existing.update (plan database existing none options))
          none options = [] := by
  intro h
  obtain ⟨-, again⟩ := h modular ∅ { index := true } (by decide) (by decide)
  exact not_inPlace rfl (by decide) _ (plan_eq_nil_iff.mp again)

end Plan

end SchemaDrift
