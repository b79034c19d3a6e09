import SchemaDrift.Proofs.Schema.Put

namespace SchemaDrift

/-!
# Edits under keys

An edit acts on what a list holds under one key. Under each key, a run of edits does what the edits
of this key do, whatever the other edits are.
-/

/-- What happens to what stands under a key; an edit may be refused. -/
structure Edit (κ α : Type) where
  key : κ
  act : Option α → Option (Option α)

namespace Edit

variable {κ α : Type}

/-- Puts an element under its key, in the place of what is there. -/
def put (key : κ) (a : α) : Edit κ α := ⟨key, fun _ => some (some a)⟩

/-- Removes what stands under a key, which has to be there. -/
def remove (key : κ) : Edit κ α := ⟨key, fun old => old.map fun _ => none⟩

/-- What some edits of one key do, one after the other. -/
def actAll? (es : List (Edit κ α)) (old : Option α) : Option (Option α) :=
  es.foldlM (fun old e => e.act old) old

/-- Whether an edit leaves an element under its key. -/
def KeepsKey (key : α → κ) (e : Edit κ α) : Prop :=
  ∀ old a, (∀ b ∈ old, key b = e.key) → e.act old = some (some a) → key a = e.key

theorem keepsKey_put {key : α → κ} {k : κ} {a : α} (h : key a = k) : KeepsKey key (put k a) := by
  rintro - b - ⟨⟩
  exact h

theorem keepsKey_remove (key : α → κ) (k : κ) : KeepsKey key (remove k) := by
  intro old a _ h
  cases old <;> cases h

theorem actAll?_append (es fs : List (Edit κ α)) (old : Option α) :
    actAll? (es ++ fs) old = (actAll? es old).bind (actAll? fs) := List.foldlM_append

theorem actAll?_put {β : Type} (bs : List β) (k : κ) (a : α) (old : Option α) :
    actAll? (bs.map fun _ => put k a) old = some (if bs = [] then old else some a) := by
  induction bs generalizing old with
  | nil => rfl
  | cons b bs ih =>
    rw [List.map_cons, actAll?, List.foldlM_cons]
    have rest := ih (some a)
    rw [if_neg (by simp)]
    split at rest
    · exact rest
    · exact rest

variable [BEq κ]

/-- Applies an edit to a list. -/
def step? (key : α → κ) (e : Edit κ α) (l : List α) : Option (List α) :=
  (e.act (l.find? (key · == e.key))).map fun
    | some a => putBy (key · == e.key) a l
    | none => l.filter (key · != e.key)

/-- Applies edits to a list, one after the other. -/
def run? (key : α → κ) (es : List (Edit κ α)) (l : List α) : Option (List α) :=
  es.foldlM (fun l e => e.step? key l) l

/-- The edits of one key. -/
def under (k : κ) (es : List (Edit κ α)) : List (Edit κ α) := es.filter (·.key == k)

theorem under_append (k : κ) (es fs : List (Edit κ α)) :
    under k (es ++ fs) = under k es ++ under k fs := List.filter_append es fs

variable [LawfulBEq κ] {key : α → κ}

/-- An edit changes what stands under its key and nothing else. -/
theorem exists_step? {e : Edit κ α} (he : e.KeepsKey key) {l : List α} (hn : (l.map key).Nodup)
    {new : Option α} (h : e.act (l.find? (key · == e.key)) = some new) :
    ∃ l', e.step? key l = some l' ∧ (l'.map key).Nodup ∧ l'.find? (key · == e.key) = new ∧
      ∀ k, k ≠ e.key → l'.find? (key · == k) = l.find? (key · == k) := by
  rw [step?, h]
  cases new with
  | none =>
    have left (k : κ) : (l.filter (key · != e.key)).find? (key · == k) =
        if (k != e.key) = true then l.find? (key · == k) else none :=
      find?_filter_key l (· != e.key) k
    refine ⟨_, rfl, hn.sublist (List.filter_sublist.map key), ?_, fun k hk => ?_⟩
    · exact (left e.key).trans (if_neg (by simp))
    · exact (left k).trans (if_pos (bne_iff_ne.mpr hk))
  | some a =>
    have ha : key a = e.key := he _ a (fun b hb => (find?_key_eq_some hb).2) h
    exact ⟨_, rfl, nodup_putBy hn ha, find?_putBy_self l ha,
      fun k hk => find?_putBy_of_ne l ha hk⟩

theorem under_cons_self (e : Edit κ α) (es : List (Edit κ α)) :
    under e.key (e :: es) = e :: under e.key es := List.filter_cons_of_pos (by simp)

theorem under_cons_of_ne {e : Edit κ α} {k : κ} (h : e.key ≠ k) (es : List (Edit κ α)) :
    under k (e :: es) = under k es := List.filter_cons_of_neg (by simpa using h)

/-- A run goes through if it does under each key, and then it leaves under each key what the edits
of this key make of what stood there. -/
theorem exists_run? {es : List (Edit κ α)} (hes : ∀ e ∈ es, e.KeepsKey key) {l : List α}
    (hn : (l.map key).Nodup) {new : κ → Option α}
    (h : ∀ k, actAll? (under k es) (l.find? (key · == k)) = some (new k)) :
    ∃ l', run? key es l = some l' ∧ (l'.map key).Nodup ∧ ∀ k, l'.find? (key · == k) = new k := by
  -- The hypothesis on all keys at once is what a step preserves: it moves the edit into the list.
  induction es generalizing l with
  | nil => exact ⟨l, rfl, hn, fun k => Option.some.inj (h k)⟩
  | cons e es ih =>
    have first := h e.key
    rw [under_cons_self, actAll?, List.foldlM_cons] at first
    obtain ⟨here, hact, hrest⟩ := Option.bind_eq_some_iff.mp first
    obtain ⟨l', hstep, hn', hself, hother⟩ := exists_step? (hes e List.mem_cons_self) hn hact
    have rest : ∀ k, actAll? (under k es) (l'.find? (key · == k)) = some (new k) := by
      intro k
      by_cases hk : k = e.key
      · rw [hk, hself]
        exact hrest
      · rw [hother k hk, ← under_cons_of_ne (Ne.symm hk) es]
        exact h k
    obtain ⟨l'', hrun, hdone⟩ := ih (fun e' he' => hes e' (List.mem_cons_of_mem e he')) hn' rest
    refine ⟨l'', ?_, hdone⟩
    rw [run?, List.foldlM_cons, hstep]
    exact hrun

/-- Where groups of edits belong to elements with keys of their own, the edits of a key are the
group of its element. -/
theorem under_flatMap {β : Type} {keyOf : β → κ} {g : β → List (Edit κ α)} {bs : List β}
    (hn : (bs.map keyOf).Nodup) (hg : ∀ b ∈ bs, ∀ e ∈ g b, e.key = keyOf b) (k : κ) :
    under k (bs.flatMap g) = ((bs.find? (keyOf · == k)).map g).getD [] := by
  induction bs with
  | nil => rfl
  | cons b bs ih =>
    obtain ⟨hb, hn⟩ := List.nodup_cons.mp hn
    have rest := ih hn fun b' hb' => hg b' (List.mem_cons_of_mem b hb')
    have here := hg b List.mem_cons_self
    rw [List.flatMap_cons, under, List.filter_append]
    by_cases hk : keyOf b = k
    · have all : (g b).filter (·.key == k) = g b :=
        List.filter_eq_self.mpr fun e he => by simp [here e he, hk]
      have none : bs.find? (keyOf · == k) = none := find?_key_eq_none.mpr (hk ▸ hb)
      rw [under, none] at rest
      rw [all, rest, List.find?_cons_of_pos (by simp [hk])]
      exact List.append_nil _
    · have none : (g b).filter (·.key == k) = [] :=
        List.filter_eq_nil_iff.mpr fun e he => by simp [here e he, hk]
      rw [none, List.nil_append, List.find?_cons_of_neg (by simpa using hk)]
      exact rest

/-! ## Bringing a list to a source -/

section Sync

variable {β γ : Type} {needs : α → List β} {drops : α → List γ}

/-- Edits for a list `ts` with `ss` as its source: an element of the source is put in place once for
each of its needs, and an element of the list is removed once for each reason to drop it. -/
def sync (key : α → κ) (needs : α → List β) (drops : α → List γ) (ss ts : List α) :
    List (Edit κ α) :=
  ss.flatMap (fun a => (needs a).map fun _ => put (key a) a) ++
    ts.flatMap fun b => (drops b).map fun _ => remove (key b)

omit [BEq κ] [LawfulBEq κ] in
theorem keepsKey_of_mem_sync {ss ts : List α} {e : Edit κ α}
    (h : e ∈ sync key needs drops ss ts) : e.KeepsKey key := by
  rcases List.mem_append.mp h with h | h
  · obtain ⟨a, -, he⟩ := List.mem_flatMap.mp h
    obtain ⟨-, -, rfl⟩ := List.mem_map.mp he
    exact keepsKey_put rfl
  · obtain ⟨b, -, he⟩ := List.mem_flatMap.mp h
    obtain ⟨-, -, rfl⟩ := List.mem_map.mp he
    exact keepsKey_remove key _

theorem under_sync {ss ts : List α} (hs : (ss.map key).Nodup) (ht : (ts.map key).Nodup) (k : κ) :
    under k (sync key needs drops ss ts) =
      ((ss.find? (key · == k)).map fun a => (needs a).map fun _ => put (key a) a).getD [] ++
        ((ts.find? (key · == k)).map fun b => (drops b).map fun _ => remove (key b)).getD [] := by
  have puts (a : α) (_ : a ∈ ss) : ∀ e ∈ (needs a).map fun _ => put (key a) a, e.key = key a := by
    intro e he
    obtain ⟨-, -, rfl⟩ := List.mem_map.mp he
    rfl
  have removes (b : α) (_ : b ∈ ts) :
      ∀ e ∈ (drops b).map fun _ => (remove (key b) : Edit κ α), e.key = key b := by
    intro e he
    obtain ⟨-, -, rfl⟩ := List.mem_map.mp he
    rfl
  rw [sync, under_append, under_flatMap hs puts, under_flatMap ht removes]

/-- If just the elements without a counterpart in the source are dropped, then afterwards the list
holds an element for each one of the source: this one if it was needed, the old one if not. -/
theorem exists_run?_sync {ss ts : List α} (hs : (ss.map key).Nodup) (ht : (ts.map key).Nodup)
    (hdrops : ∀ b ∈ ts, (drops b).length = if key b ∈ ss.map key then 0 else 1) :
    ∃ l, run? key (sync key needs drops ss ts) ts = some l ∧ (l.map key).Nodup ∧
      ∀ k, l.find? (key · == k) = (ss.find? (key · == k)).bind fun a =>
        if needs a = [] then ts.find? (key · == k) else some a := by
  apply exists_run? (fun e he => keepsKey_of_mem_sync he) ht
  intro k
  rw [under_sync hs ht]
  cases hsource : ss.find? (key · == k) with
  | none =>
    rw [Option.map_none, Option.getD_none, List.nil_append, Option.bind_none]
    cases htarget : ts.find? (key · == k) with
    | none => rfl
    | some b =>
      obtain ⟨hb, rfl⟩ := find?_key_eq_some htarget
      have once : (drops b).length = 1 := by
        rw [hdrops b hb, if_neg (find?_key_eq_none.mp hsource)]
      obtain ⟨c, hc⟩ := List.length_eq_one_iff.mp once
      rw [Option.map_some, Option.getD_some, hc]
      rfl
  | some a =>
    obtain ⟨ha, rfl⟩ := find?_key_eq_some hsource
    have kept : ((ts.find? (key · == key a)).map fun b =>
        (drops b).map fun _ => (remove (key b) : Edit κ α)).getD [] = [] := by
      cases htarget : ts.find? (key · == key a) with
      | none => rfl
      | some b =>
        obtain ⟨hb, hk⟩ := find?_key_eq_some htarget
        have never : (drops b).length = 0 := by
          rw [hdrops b hb, if_pos (hk ▸ List.mem_map_of_mem ha)]
        rw [Option.map_some, Option.getD_some, List.length_eq_zero_iff.mp never]
        rfl
    rw [kept, List.append_nil, Option.map_some, Option.getD_some, actAll?_put, Option.bind_some]

end Sync

end Edit

end SchemaDrift
