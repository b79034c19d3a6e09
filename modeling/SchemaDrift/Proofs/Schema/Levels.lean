import SchemaDrift.Proofs.Schema.Terms

namespace SchemaDrift.TypeExpr

/-!
# Bracket levels of normal forms

The normal form rewrites a type inside of its brackets, and the brackets that it adds close what
they open. So a text leads from one bracket depth to another just as its normal form does, even
where the brackets in the parts of the text do not pair.
-/

variable {d e f : Int} {a b t name : Text} {parts args : List Text}

/-- Whether the text leads from one bracket depth to another, neither below zero nor past a comma at
depth zero. -/
def Leads (d : Int) : Text → Int → Prop
  | [], e => d = e
  | c :: t, e => ¬ (c = ',' ∧ d = 0) ∧ 0 ≤ d + bracket c ∧ Leads (d + bracket c) t e

instance instDecidableLeads (d : Int) (t : Text) (e : Int) : Decidable (Leads d t e) :=
  match t with
  | [] => inferInstanceAs (Decidable (d = e))
  | c :: t =>
    have := instDecidableLeads (d + bracket c) t e
    inferInstanceAs (Decidable (¬ (c = ',' ∧ d = 0) ∧ 0 ≤ d + bracket c ∧ _))

theorem leads_append_iff : Leads d (a ++ b) e ↔ ∃ f, Leads d a f ∧ Leads f b e := by
  induction a generalizing d with
  | nil => simp [Leads]
  | cons c a ih => simp [Leads, ih, and_assoc]

theorem Leads.append (ha : Leads d a f) (hb : Leads f b e) : Leads d (a ++ b) e :=
  leads_append_iff.mpr ⟨f, ha, hb⟩

theorem Leads.unique (h : Leads d t e) (h' : Leads d t f) : e = f := by
  induction t generalizing d with
  | nil => exact h.symm.trans h'
  | cons c t ih => exact ih h.2.2 h'.2.2

theorem Leads.nonneg (hd : 0 ≤ d) (h : Leads d t e) : 0 ≤ e := by
  induction t generalizing d with
  | nil =>
    have same : d = e := h
    omega
  | cons c t ih => exact ih h.2.1 h.2.2

/-- One level further inside a text leads from and to one level further inside. -/
theorem Leads.succ (hd : 0 ≤ d) (h : Leads d t e) : Leads (d + 1) t (e + 1) := by
  induction t generalizing d with
  | nil =>
    have same : d = e := h
    exact congrArg (· + 1) same
  | cons c t ih =>
    obtain ⟨-, hnonneg, h⟩ := h
    have rest := ih hnonneg h
    rw [show d + bracket c + 1 = d + 1 + bracket c by omega] at rest
    exact ⟨by omega, by omega, rest⟩

theorem leads_of_plain (hd : 0 ≤ d) (h : ∀ c ∈ t, bracket c = 0 ∧ c ≠ ',') : Leads d t d := by
  induction t with
  | nil => rfl
  | cons c t ih =>
    obtain ⟨hc, hcomma⟩ := h c List.mem_cons_self
    have rest := ih fun x hx => h x (List.mem_cons_of_mem c hx)
    refine ⟨fun he => hcomma he.1, by omega, ?_⟩
    rwa [hc, Int.add_zero]

/-- A text that leads out of all brackets closes those that are open and hides its commas in
them. -/
theorem leads_zero_iff : Leads d t 0 ↔ Balanced d t ∧ splitFrom ',' d t = [t] := by
  induction t generalizing d with
  | nil => simp [Leads, Balanced, splitFrom]
  | cons c t ih =>
    constructor
    · rintro ⟨hcomma, hnonneg, h⟩
      obtain ⟨balanced, whole⟩ := ih.mp h
      refine ⟨⟨hnonneg, balanced⟩, ?_⟩
      rw [splitFrom, if_neg hcomma, whole]
      rfl
    · rintro ⟨⟨hnonneg, balanced⟩, whole⟩
      obtain ⟨hcomma, whole⟩ := splitFrom_tail whole
      exact ⟨hcomma, hnonneg, ih.mpr ⟨balanced, whole⟩⟩

theorem leads_iff : Leads 0 t 0 ↔ Balanced 0 t ∧ Whole ',' t := leads_zero_iff

/-! ## Joined parts -/

/-- Whether a rewriting of texts keeps the levels that they lead between. -/
def KeepsLevels (g : Text → Text) (t : Text) : Prop :=
  ∀ ⦃d e : Int⦄, 0 ≤ d → Leads d t e → Leads d (g t) e

/-- Parts that keep their levels can be exchanged between separators. -/
theorem Leads.join_map {sep : Char} {g : Text → Text}
    (hg : ∀ p ∈ parts, KeepsLevels g p) (hd : 0 ≤ d)
    (h : Leads d (Text.join [sep] parts) e) : Leads d (Text.join [sep] (parts.map g)) e := by
  induction parts generalizing d with
  | nil => exact h
  | cons p parts ih =>
    cases parts with
    | nil =>
      rw [Text.join_singleton] at h
      rw [List.map_singleton, Text.join_singleton]
      exact hg p List.mem_cons_self hd h
    | cons q parts =>
      rw [Text.join_cons_cons, leads_append_iff] at h
      obtain ⟨m, hp, h⟩ := h
      obtain ⟨n, hsep, h⟩ := leads_append_iff.mp h
      have rest := ih (fun p hp => hg p (List.mem_cons_of_mem _ hp)) (hsep.nonneg (hp.nonneg hd)) h
      rw [List.map_cons, List.map_cons, Text.join_cons_cons]
      exact (hg p List.mem_cons_self hd hp).append (hsep.append rest)

/-- The bars between parts do not count. -/
theorem leads_join_bar_iff (hd : 0 ≤ d) :
    Leads d (Text.join ['|'] parts) e ↔ Leads d parts.flatten e := by
  induction parts generalizing d with
  | nil => rfl
  | cons p parts ih =>
    cases parts with
    | nil => simp
    | cons q parts =>
      have bar {m : Int} (hm : 0 ≤ m) : Leads m ['|'] m := leads_of_plain hm (by decide)
      rw [Text.join_cons_cons, List.flatten_cons, leads_append_iff, leads_append_iff]
      refine exists_congr fun m => and_congr_right fun hp => ?_
      have hm := hp.nonneg hd
      rw [leads_append_iff, ← ih hm]
      constructor
      · rintro ⟨n, hn, h⟩
        rwa [hn.unique (bar hm)] at h
      · exact fun h => ⟨m, bar hm, h⟩

/-- A word without brackets and commas can be left out. -/
theorem Leads.flatten_filter {word : Text}
    (hword : ∀ c ∈ word, bracket c = 0 ∧ c ≠ ',') (hd : 0 ≤ d)
    (h : Leads d parts.flatten e) : Leads d (parts.filter (· != word)).flatten e := by
  induction parts generalizing d with
  | nil => exact h
  | cons p parts ih =>
    obtain ⟨m, hp, h⟩ := leads_append_iff.mp h
    have rest := ih (hp.nonneg hd) h
    by_cases hw : p = word
    · rw [hw] at hp
      rw [List.filter_cons_of_neg (by simp [hw])]
      rwa [← hp.unique (leads_of_plain hd hword)]
    · rw [List.filter_cons_of_pos (by simp [hw])]
      exact hp.append rest

/-! ## Normal forms -/

theorem leads_application_iff (hd : 0 ≤ d) : Leads d (application name args) e ↔
    0 ≤ e ∧ ∃ m, Leads d name m ∧ Leads (m + 1) (Text.join [','] args) (e + 1) := by
  have opening : bracket '<' = 1 := rfl
  have closing : bracket '>' = -1 := rfl
  rw [application, leads_append_iff]
  constructor
  · rintro ⟨m, hname, -, -, h⟩
    obtain ⟨n, hargs, -, hnonneg, hclose⟩ := leads_append_iff.mp h
    have last : n + bracket '>' = e := hclose
    rw [opening] at hargs
    rw [closing] at hnonneg last
    refine ⟨by omega, m, hname, ?_⟩
    rwa [show e + 1 = n by omega]
  · rintro ⟨hnonneg, m, hname, hargs⟩
    have hm := hname.nonneg hd
    have close : Leads (e + 1) ['>'] e := by
      refine ⟨by simp, ?_, ?_⟩
      · rw [closing]
        omega
      · rw [closing]
        exact Int.add_neg_cancel_right e 1
    refine ⟨m, hname, by simp, ?_, ?_⟩
    · rw [opening]
      omega
    · rw [opening]
      exact hargs.append close

theorem Leads.joinTerms (hd : 0 ≤ d) (h : Leads d (Text.join ['|'] parts) e) :
    Leads d (joinTerms parts) e := by
  rcases joinTerms_cases parts with ⟨-, -, heq⟩ | ⟨-, heq⟩
  · have plain : ∀ c ∈ ("none" : Text), bracket c = 0 ∧ c ≠ ',' := by decide
    have others := ((leads_join_bar_iff hd).mp h).flatten_filter plain hd
    have inner := ((leads_join_bar_iff hd).mpr others).succ hd
    rw [heq, leads_application_iff hd]
    refine ⟨h.nonneg hd, d, leads_of_plain hd (by decide), ?_⟩
    rwa [Text.join_singleton]
  · rwa [heq]

theorem Leads.applyName (hd : 0 ≤ d) (h : Leads d (application name args) e) :
    Leads d (applyName name args) e := by
  rcases applyName_cases name args with ⟨-, rfl, heq⟩ | ⟨-, heq⟩
  · -- The argument that is left out leads nowhere, and so do the brackets around it.
    obtain ⟨-, m, hname, hany⟩ := (leads_application_iff hd).mp h
    have hm := hname.nonneg hd
    have any : Leads (m + 1) ("any" : Text) (m + 1) := leads_of_plain (by omega) (by decide)
    rw [Text.join_singleton] at hany
    have same := any.unique hany
    rw [heq, show e = m by omega]
    exact hname
  · rwa [heq]

/-- The normal form of a text keeps its levels. -/
theorem keepsLevels_normalUnion (t : Text) : KeepsLevels normalUnion t := by
  refine normalUnion.induct (KeepsLevels normalUnion) (KeepsLevels normalTerm) ?union ?atom
    ?application t
  case union =>
    intro t ih d e hd h
    rw [← join_splitTop '|' t] at h
    rw [normalUnion_eq]
    exact (h.join_map ih hd).joinTerms hd
  case atom =>
    intro term hnone d e hd h
    rwa [normalTerm_of_atom hnone]
  case application =>
    intro term name args happ ih d e hd h
    have form : term = application name (splitTop ',' args) := by
      rw [eq_of_application? happ, application]
      exact congrArg (fun inner => name ++ '<' :: (inner ++ ['>'])) (join_splitTop ',' args).symm
    obtain ⟨hnonneg, m, hname, hargs⟩ := (leads_application_iff hd).mp (form ▸ h)
    have hm := hname.nonneg hd
    rw [normalTerm_of_application happ]
    refine .applyName hd ((leads_application_iff hd).mpr ⟨hnonneg, m, hname, ?_⟩)
    exact hargs.join_map ih (by omega)

/-- The normal form of a text that closes its brackets and hides its commas in them does so too. -/
theorem closed_normalUnion (hb : Balanced 0 t) (hw : Whole ',' t) :
    Balanced 0 (normalUnion t) ∧ Whole ',' (normalUnion t) :=
  leads_iff.mp (keepsLevels_normalUnion t (Int.le_refl 0) (leads_iff.mpr ⟨hb, hw⟩))

end SchemaDrift.TypeExpr
