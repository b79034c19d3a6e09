import SchemaDrift.Proofs.Statement.Surroundings

namespace SchemaDrift

/-!
# Names and identifiers

An identifier is what stands between backticks, or else everything up to a blank, a semicolon or an
opening bracket. The head of a definition takes only the name at the start of it, which is the whole
identifier just if that is a name.
-/

namespace Text

/-- The letters, digits and underscores at the start of a text. -/
def leadingName (t : Text) : Text := t.takeWhile isNameChar

end Text

theorem IsName.leadingName_eq {t : Text} (h : IsName t) : t.leadingName = t :=
  List.takeWhile_eq_self_iff.mpr h.2

/-- Whether a name is what is taken of an identifier. An identifier that does not start with a name
is passed over. -/
structure NameOf (name identifier : Text) : Prop where
  isName : IsName name
  whole : name = identifier ↔ IsName identifier
  start : identifier.leadingName ≠ [] → name = identifier.leadingName

namespace Head

/-! ## Identifiers -/

def identifierAt : Text → Text
  | '\x60' :: rest => rest.takeWhile (· != '\x60')
  | t => t.takeWhile isNamePart

/-- The identifier at the start of a text. -/
def identifier? (t : Text) : Option Text :=
  if identifierAt t = [] then none else some (identifierAt t)

/-- The identifier of the table after `ON` or `ON TABLE`. -/
def targetIdentifier? (t : Text) : Option Text :=
  ((Text.skipBlanks? t).bind (word? "on")).bind fun t =>
    ((word? "table" t).bind identifier?).or (identifier? t)

theorem isNamePart_of_isNameChar {c : Char} (h : Text.isNameChar c = true) :
    isNamePart c = true := by
  have semicolon : c ≠ ';' := ne_of_isNameChar h (by decide)
  have bracket : c ≠ '(' := ne_of_isNameChar h (by decide)
  simp [isNamePart, isBlank_of_isNameChar h, semicolon, bracket]

theorem leadingName_takeWhile {p : Char → Bool} (h : ∀ c, Text.isNameChar c = true → p c = true)
    (t : Text) : Text.leadingName (t.takeWhile p) = t.leadingName := by
  rw [Text.leadingName, List.takeWhile_takeWhile]
  congr 1
  funext c
  cases hc : Text.isNameChar c with
  | false => simp
  | true => simp [h c hc]

theorem leadingName_identifierAt (t : Text) :
    (identifierAt t).leadingName = (skipBacktick t).leadingName := by
  unfold identifierAt
  split
  · rename_i rest
    exact leadingName_takeWhile (fun c h => by simpa using ne_of_isNameChar h (by decide)) rest
  · rename_i hother
    have plain : t.head? ≠ some '\x60' := by
      cases t with
      | nil => simp
      | cons c cs =>
        intro hc
        exact hother cs (by rw [Option.some.inj hc])
    rw [skipBacktick_eq_self plain]
    exact leadingName_takeWhile (fun c => isNamePart_of_isNameChar) t

/-! ## Readings of identifiers -/

/-- Whether one reading finds the name at the start of the identifier that another one finds. -/
structure Cuts (read whole : Option Text) : Prop where
  isName : ∀ n ∈ read, IsName n
  none : whole = none → read = none
  start : ∀ w ∈ whole, w.leadingName ≠ [] → read = some w.leadingName

namespace Cuts

variable {α : Type} {read read' whole whole' : Option Text} {n : Text}

theorem exists_nameOf (h : Cuts read whole) (hn : read = some n) :
    ∃ w, whole = some w ∧ NameOf n w := by
  have name := h.isName n hn
  cases hw : whole with
  | none =>
    rw [h.none hw] at hn
    cases hn
  | some w =>
    refine ⟨w, rfl, name, ⟨fun heq => heq ▸ name, fun hname => ?_⟩, fun hne => ?_⟩
    · have start := h.start w hw (by rw [hname.leadingName_eq]; exact hname.1)
      rw [hname.leadingName_eq] at start
      exact Option.some.inj (hn.symm.trans start)
    · exact Option.some.inj (hn.symm.trans (h.start w hw hne))

theorem or (h : Cuts read whole) (h' : Cuts read' whole') :
    Cuts (read.or read') (whole.or whole') where
  isName n hn := by
    rcases Option.or_eq_some_iff.mp hn with hn | ⟨-, hn⟩
    · exact h.isName n hn
    · exact h'.isName n hn
  none hnone := by
    obtain ⟨hw, hw'⟩ := Option.or_eq_none_iff.mp hnone
    rw [h.none hw, h'.none hw']
    rfl
  start w hw hne := by
    rcases Option.or_eq_some_iff.mp hw with hw | ⟨hnone, hw⟩
    · rw [h.start w hw hne]
      rfl
    · rw [h.none hnone, h'.start w hw hne]
      rfl

theorem bind {f g : α → Option Text} (h : ∀ a, Cuts (f a) (g a)) (x : Option α) :
    Cuts (x.bind f) (x.bind g) := by
  cases x with
  | none => exact ⟨fun _ hn => (by cases hn), fun _ => rfl, fun _ hw => (by cases hw)⟩
  | some a => exact h a

theorem guarded {f g : Text → Option Text} (h : ∀ t, Cuts (f t) (g t)) (t : Text) :
    Cuts (guarded f t) (guarded g t) := (bind h (guard? t)).or (h t)

end Cuts

theorem cuts_name? (t : Text) : Cuts ((name? t).map Prod.fst) (identifier? t) := by
  have read : (name? t).map Prod.fst =
      if (identifierAt t).leadingName = [] then none else some (identifierAt t).leadingName := by
    rw [name?, Text.takeName?_eq, Option.map_map, leadingName_identifierAt, Text.leadingName]
    split <;> rfl
  refine ⟨fun n hn => ?_, fun hnone => ?_, fun w hw hne => ?_⟩
  · obtain ⟨⟨n, rest⟩, hr, rfl⟩ := Option.map_eq_some_iff.mp hn
    obtain ⟨r, hname, heq⟩ := Option.map_eq_some_iff.mp hr
    cases heq
    exact isName_of_takeName? hname
  · have empty : identifierAt t = [] := by
      by_contra h
      rw [identifier?, if_neg h] at hnone
      cases hnone
    rw [read, empty]
    rfl
  · rw [identifier?] at hw
    split at hw
    · cases hw
    · obtain rfl := Option.some.inj hw
      rw [read, if_neg hne]

theorem cuts_target? (t : Text) : Cuts ((target? t).map Prod.fst) (targetIdentifier? t) := by
  have read : (target? t).map Prod.fst = ((Text.skipBlanks? t).bind (word? "on")).bind fun t =>
      ((word? "table" t).bind fun t => (name? t).map Prod.fst).or ((name? t).map Prod.fst) := by
    rw [target?, Option.bind_eq_bind, Option.map_bind]
    congr 1
    funext t
    rw [Function.comp_apply, Option.map_or, Option.map_bind]
    rfl
  rw [read]
  exact Cuts.bind (fun t => (Cuts.bind cuts_name? _).or (cuts_name? t)) _

theorem map_guarded {α β : Type} (f : α → β) (read : Text → Option α) (t : Text) :
    (guarded read t).map f = guarded (fun t => (read t).map f) t := by
  rw [guarded, guarded, Option.map_or, Option.map_bind]
  rfl

/-- The identifier of the table to which a definition of this noun belongs. -/
def ownerIdentifier? (noun : Text) (first : Text → Option (Text × Text)) (s : Text) :
    Option Text :=
  (define? noun s).bind (guarded fun t => (first t).bind fun r => targetIdentifier? r.2)

theorem cuts_owned (noun : Text) (first : Text → Option (Text × Text)) (s : Text) :
    Cuts (((define? noun s).bind (guarded (owned first))).map Owned.table)
      (ownerIdentifier? noun first s) := by
  have table (t : Text) : (owned first t).map Owned.table =
      (first t).bind fun r => (target? r.2).map Prod.fst := by
    rw [owned]
    cases first t with
    | none => rfl
    | some r => cases h : target? r.2 <;> simp [h]
  rw [Option.map_bind]
  refine Cuts.bind (fun t => ?_) _
  rw [Function.comp_apply, map_guarded]
  simp only [table]
  exact Cuts.guarded (fun t => Cuts.bind (fun r => cuts_target? r.2) (first t)) t

end Head

/-! ## Statements -/

namespace Statement

/-- The identifier of the table that a statement defines. -/
def tableIdentifier? (s : Text) : Option Text :=
  (Head.define? "table" s).bind (Head.guarded Head.identifier?)

/-- The identifier of the table to which the definition of a member belongs. -/
def ownerIdentifier? (s : Text) : Option Text :=
  (Head.ownerIdentifier? "field" Head.path? s).or <|
    (Head.ownerIdentifier? "index" Head.name? s).or (Head.ownerIdentifier? "event" Head.name? s)

/-- The name of a table that is read is what is taken of its identifier. -/
theorem exists_tableIdentifier? {s : Text} {t : Table} (h : readTable s = .ok t) :
    ∃ w, tableIdentifier? s = some w ∧ NameOf t.name w := by
  have cuts : Head.Cuts ((Head.table? s).map Prod.fst) (tableIdentifier? s) := by
    rw [Head.table?, Option.map_bind]
    refine Head.Cuts.bind (fun t => ?_) _
    rw [Function.comp_apply, Head.map_guarded]
    exact Head.Cuts.guarded Head.cuts_name? t
  refine cuts.exists_nameOf ?_
  rw [readTable] at h
  cases hhead : Head.table? s with
  | none =>
    rw [hhead] at h
    cases h
  | some r =>
    rw [hhead] at h
    cases h
    rfl

/-- The name of the table of a member is what is taken of the identifier of the table. -/
theorem exists_ownerIdentifier? {s : Text} {noun : Noun} {n : Text}
    (h : target? s = some (noun, n)) : ∃ w, ownerIdentifier? s = some w ∧ NameOf n w := by
  have cuts : Head.Cuts ((target? s).map Prod.snd) (ownerIdentifier? s) := by
    rw [target?, Option.map_or, Option.map_or, Option.map_map, Option.map_map, Option.map_map]
    exact (Head.cuts_owned _ _ s).or ((Head.cuts_owned _ _ s).or (Head.cuts_owned _ _ s))
  refine cuts.exists_nameOf ?_
  rw [h]
  rfl

end Statement

end SchemaDrift
