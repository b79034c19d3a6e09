import SchemaDrift.Proofs.Statement.Closed
import SchemaDrift.Proofs.Statement.Phrase
import SchemaDrift.Statement.Write

namespace SchemaDrift

/-!
# Written permissions

The permissions clause is read back as it was written, in both of its forms: one word for all
operations, or a clause for each operation.
-/

/-- Whether the text can be the expression of a grant: no comma stands at its ends, and no keyword
in it ends the grant or the clause. -/
structure IsGrant (expr : Text) : Prop where
  settled : Script.Settled expr
  head : expr.head? ≠ some ','
  last : expr.getLast? ≠ some ','
  grants : Keyword.Free "FOR" expr
  comments : Keyword.Free "COMMENT" expr

instance (expr : Text) : Decidable (IsGrant expr) :=
  decidable_of_iff (Script.Settled expr ∧ expr.head? ≠ some ',' ∧ expr.getLast? ≠ some ',' ∧
      Keyword.Free "FOR" expr ∧ Keyword.Free "COMMENT" expr)
    ⟨fun ⟨hs, hh, hl, hg, hc⟩ => ⟨hs, hh, hl, hg, hc⟩,
      fun h => ⟨h.settled, h.head, h.last, h.grants, h.comments⟩⟩

/-- Whether the permissions can be written. The word for all operations is read in capitals. -/
structure Permissions.Writable (p : Permissions) : Prop where
  isGrant : ∀ op, ∀ expr ∈ p.get op, IsGrant expr
  capitals : ∀ expr ∈ p.uniform?, (Text.sameLetters expr "FULL" → expr = "FULL") ∧
    (Text.sameLetters expr "NONE" → expr = "NONE")

instance (p : Permissions) : Decidable p.Writable :=
  decidable_of_iff ((∀ op ∈ Operation.all, ∀ expr ∈ p.get op, IsGrant expr) ∧
      ∀ expr ∈ p.uniform?, (Text.sameLetters expr "FULL" → expr = "FULL") ∧
        (Text.sameLetters expr "NONE" → expr = "NONE"))
    ⟨fun h => ⟨fun op => h.1 op op.mem_all, h.2⟩, fun h => ⟨fun op _ => h.isGrant op, h.capitals⟩⟩

namespace Statement

/-- The parts of the clauses for some operations. -/
def grantParts (grants : List (Operation × Text)) : List Text :=
  grants.flatMap fun g => ["FOR", g.1.keyword, g.2]

/-- The parts of the permissions clause. -/
def permissionParts (p : Permissions) : List Text :=
  if p.isEmpty then []
  else
    "PERMISSIONS" ::
      match p.uniform? with
      | some expr =>
        if Text.sameLetters expr "FULL" || Text.sameLetters expr "NONE" then [expr]
        else grantParts p.granted
      | none => grantParts p.granted

theorem phrase_grantParts (p : Permissions) : phrase (grantParts p.granted) = grants p := by
  rw [grantParts, grants, phrase, List.flatMap_assoc]
  simp

theorem phrase_permissionParts (p : Permissions) : phrase (permissionParts p) = permissions p := by
  unfold permissionParts permissions
  split
  · rfl
  · rw [phrase_cons]
    apply congrArg ((" PERMISSIONS" : Text) ++ ·)
    cases p.uniform? with
    | none => exact phrase_grantParts p
    | some expr =>
      change phrase (if _ then _ else _) = if _ then _ else _
      split
      · rw [phrase_cons, phrase_nil, List.append_nil]
        rfl
      · exact phrase_grantParts p

/-! ## Reading grants -/

theorem takeWhile_keyword (op : Operation) (t : Text) :
    (op.keyword ++ ' ' :: t).takeWhile Char.isAlpha = op.keyword := by
  cases op <;> rfl

theorem dropWhile_keyword (op : Operation) (t : Text) :
    (op.keyword ++ ' ' :: t).dropWhile Char.isAlpha = ' ' :: t := by
  cases op <;> rfl

theorem isTrimmed_operation (op : Operation) : Text.IsTrimmed op.keyword := by
  cases op <;> decide

/-- An operation and its expression are read apart, as no comma follows the operation. -/
theorem operations_keyword (op : Operation) {expr : Text} (h : Text.IsTrimmed expr)
    (hcomma : expr.head? ≠ some ',') :
    Clause.operations (op.keyword ++ ' ' :: expr) = ([op], expr) := by
  have start : Text.trimStart (' ' :: expr) = expr := by
    obtain ⟨hne, hhead, -⟩ := Text.isTrimmed_iff.mp h
    rw [Text.trimStart_cons_of_blank expr Text.isBlank_space]
    cases expr with
    | nil => exact absurd rfl hne
    | cons c cs => exact Text.trimStart_cons_of_not_blank cs (hhead c rfl)
  rw [Clause.operations, takeWhile_keyword, Operation.ofKeyword?_keyword, dropWhile_keyword]
  split
  · rename_i heq
    cases heq
  · rename_i heq
    cases heq
    split
    · rename_i heq
      rw [start] at heq
      exact absurd (by rw [heq]; rfl) hcomma
    · rw [start]

theorem grant_phrase (p : Permissions) (op : Operation) {expr tail : Text} (h : IsGrant expr)
    (ht : ∀ c ∈ tail, Text.isBlank c = true) :
    Clause.grant p (phrase [op.keyword, expr] ++ tail) = p.set op expr := by
  have hclause : Text.IsTrimmed (op.keyword ++ ' ' :: expr) :=
    (isTrimmed_operation op).append [' '] h.settled.trimmed
  have htrim : Text.trim (phrase [op.keyword, expr] ++ tail) = op.keyword ++ ' ' :: expr := by
    have hblank : ∀ c ∈ [' '], Text.isBlank c = true := by simp
    have := Text.trim_surrounded hclause hblank ht
    simpa using this
  have hlast : (op.keyword ++ ' ' :: expr).getLast? = expr.getLast? := by
    have hne := h.settled.trimmed.ne_nil
    rw [List.getLast?_append_of_ne_nil _ (by simp), List.getLast?_cons]
    cases he : expr.getLast? with
    | none => exact absurd (List.getLast?_eq_none_iff.mp he) hne
    | some c => rfl
  have hcomma : Text.dropEndWhile (· == ',') (op.keyword ++ ' ' :: expr) =
      op.keyword ++ ' ' :: expr := by
    apply Text.dropEndWhile_eq_self_iff.mpr
    intro c hc
    have hc' : c ≠ ',' := fun he => h.last (by rw [← hlast, hc, he])
    simpa using hc'
  have hend : Text.trimEnd (op.keyword ++ ' ' :: expr) = op.keyword ++ ' ' :: expr :=
    Text.dropEndWhile_eq_self_iff.mpr (Text.isTrimmed_iff.mp hclause).2.2
  have hne : expr.isEmpty = false := by simpa using h.settled.trimmed.ne_nil
  rw [Clause.grant]
  simp only [htrim, hcomma, hend, operations_keyword op h.settled.trimmed h.head,
    h.settled.trimmed.trim_eq, hne]
  rfl

theorem isSolid_for : Keyword.IsSolid "FOR" := by decide

theorem free_operation (op : Operation) : Keyword.Free "FOR" op.keyword := by
  cases op <;> decide

theorem foldl_grant_phrase {gs : List (Operation × Text)} (h : ∀ g ∈ gs, IsGrant g.2)
    (p : Permissions) :
    ((Keyword.split "FOR" 0 none (phrase (grantParts gs))).drop 1).foldl Clause.grant p =
      gs.foldl (fun p g => p.set g.1 g.2) p := by
  induction gs generalizing p with
  | nil => rfl
  | cons g gs ih =>
    have here := h g List.mem_cons_self
    have rest : ∀ g' ∈ gs, IsGrant g'.2 := fun g' hg => h g' (List.mem_cons_of_mem g hg)
    change ((Keyword.split "FOR" 0 none
      (phrase ("FOR" :: g.1.keyword :: g.2 :: grantParts gs))).drop 1).foldl _ p = _
    rw [split_phrase_keyword isSolid_for, List.drop_one, List.tail_cons,
      split_phrase_cons_of_free isSolid_for (free_operation g.1),
      split_phrase_cons_of_free isSolid_for here.grants]
    -- In front of the next clause there is a blank, which belongs to the clause before it.
    have blank : ∀ q ∈ (Keyword.split "FOR" 0 none (phrase (grantParts gs))).head?,
        ∀ c ∈ q, Text.isBlank c = true := by
      cases gs with
      | nil => simp [grantParts, Keyword.split]
      | cons g' gs =>
        change ∀ q ∈ (Keyword.split "FOR" 0 none
          (phrase ("FOR" :: g'.1.keyword :: g'.2 :: grantParts gs))).head?, _
        rw [split_phrase_keyword isSolid_for]
        simp
    have later := ih rest (p.set g.1 g.2)
    cases hs : Keyword.split "FOR" 0 none (phrase (grantParts gs)) with
    | nil => exact absurd hs (Keyword.split_ne_nil _ _ _ _)
    | cons q qs =>
      rw [hs] at blank later
      have first := grant_phrase p g.1 here (blank q rfl)
      simp only [phrase_cons, phrase_nil, List.append_nil, List.cons_append,
        List.append_assoc] at first
      simp only [Text.prepend_cons, List.foldl_cons, List.cons_append, first]
      exact later

theorem foldl_set_granted (p : Permissions) :
    p.granted.foldl (fun p g => p.set g.1 g.2) .empty = p := by
  rcases p with ⟨_ | s, _ | c, _ | u, _ | d⟩ <;> rfl

/-! ## Reading the permissions clause -/

theorem get_of_mem_granted {p : Permissions} {g : Operation × Text} (h : g ∈ p.granted) :
    p.get g.1 = some g.2 := by
  obtain ⟨op, -, hg⟩ := List.mem_filterMap.mp h
  obtain ⟨expr, he, rfl⟩ := Option.map_eq_some_iff.mp hg
  exact he

theorem mem_granted {p : Permissions} {op : Operation} {expr : Text} (h : p.get op = some expr) :
    (op, expr) ∈ p.granted :=
  List.mem_filterMap.mpr ⟨op, op.mem_all, by rw [h]; rfl⟩

theorem granted_ne_nil {p : Permissions} (h : p.isEmpty = false) : p.granted ≠ [] := by
  intro hg
  have he := foldl_set_granted p
  rw [hg] at he
  rw [← he] at h
  cases h

theorem isGrant_granted {p : Permissions} (h : p.Writable) : ∀ g ∈ p.granted, IsGrant g.2 :=
  fun g hg => h.isGrant g.1 g.2 (get_of_mem_granted hg)

theorem forall_grantParts {P : Text → Prop} (hfor : P "FOR") (hop : ∀ op : Operation, P op.keyword)
    {gs : List (Operation × Text)} (h : ∀ g ∈ gs, P g.2) : ∀ t ∈ grantParts gs, P t := by
  intro t ht
  obtain ⟨g, hg, ht⟩ := List.mem_flatMap.mp ht
  rcases List.mem_cons.mp ht with rfl | ht
  · exact hfor
  rcases List.mem_cons.mp ht with rfl | ht
  · exact hop g.1
  · rw [List.mem_singleton.mp ht]
    exact h g hg

theorem forall_permissionParts {P : Text → Prop} (hclause : P "PERMISSIONS") (hfor : P "FOR")
    (hop : ∀ op : Operation, P op.keyword) {p : Permissions}
    (h : ∀ op, ∀ expr ∈ p.get op, P expr) : ∀ t ∈ permissionParts p, P t := by
  have granted : ∀ t ∈ grantParts p.granted, P t :=
    forall_grantParts hfor hop fun g hg => h g.1 g.2 (get_of_mem_granted hg)
  intro t ht
  unfold permissionParts at ht
  split at ht
  · cases ht
  · rcases List.mem_cons.mp ht with rfl | ht
    · exact hclause
    · split at ht
      · rename_i expr hu
        split at ht
        · rw [List.mem_singleton.mp ht]
          rw [Permissions.uniform?_eq_some_iff.mp hu] at h
          exact h .select expr rfl
        · exact granted t ht
      · exact granted t ht

/-- The clauses for some operations are read as the permissions they set. -/
theorem grants_phrase {gs : List (Operation × Text)} (h : ∀ g ∈ gs, IsGrant g.2) (hne : gs ≠ []) :
    ∃ body, phrase (grantParts gs) = ' ' :: body ∧ Clause.IsBody body ∧
      Clause.grants body = gs.foldl (fun p g => p.set g.1 g.2) .empty := by
  have fold := foldl_grant_phrase h .empty
  cases gs with
  | nil => exact absurd rfl hne
  | cons g gs =>
    have parts : grantParts (g :: gs) = ("FOR" : Text) :: g.1.keyword :: g.2 :: grantParts gs := rfl
    have bodies : ∀ t ∈ g.1.keyword :: g.2 :: grantParts gs, Clause.IsBody t := by
      have all := forall_grantParts (P := Clause.IsBody) (by decide)
        (fun op => by cases op <;> decide) fun g hg => (h g hg).settled.isBody
      exact fun t ht => all t (by rw [parts]; exact List.mem_cons_of_mem _ ht)
    refine ⟨"FOR" ++ phrase (g.1.keyword :: g.2 :: grantParts gs), rfl,
      isBody_phrase (by decide) bodies, ?_⟩
    have split : (Keyword.split "FOR" 0 none
        ("FOR" ++ phrase (g.1.keyword :: g.2 :: grantParts gs))).drop 1 =
        (Keyword.split "FOR" 0 none (phrase (grantParts (g :: gs)))).drop 1 := by
      rw [Keyword.split_self isSolid_for rfl (isEdge_head_phrase _), parts,
        split_phrase_keyword isSolid_for]
      rfl
    have full : Text.sameLetters ("FOR" ++ phrase (g.1.keyword :: g.2 :: grantParts gs)) "FULL" =
        false := rfl
    have denied : Text.sameLetters ("FOR" ++ phrase (g.1.keyword :: g.2 :: grantParts gs)) "NONE" =
        false := rfl
    rw [Clause.grants, full, denied, split, fold]
    rfl

/-- The clause has a body, in whichever form it is written, and the body gives the permissions. -/
theorem exists_body_permissionParts {p : Permissions} (h : p.Writable) (hempty : ¬p.isEmpty) :
    ∃ (qs : List Text) (body : Text), permissionParts p = ("PERMISSIONS" : Text) :: qs ∧
      phrase qs = ' ' :: body ∧ Clause.IsBody body ∧ Clause.grants body = p := by
  obtain ⟨body, hphrase, hbody, hread⟩ :=
    grants_phrase (isGrant_granted h) (granted_ne_nil (by simpa using hempty))
  rw [foldl_set_granted] at hread
  rw [permissionParts, if_neg hempty]
  split
  · rename_i expr hu
    have hall := Permissions.uniform?_eq_some_iff.mp hu
    split
    · rename_i hword
      obtain ⟨hfull, hnone⟩ := h.capitals expr hu
      have hgrant : IsGrant expr := h.isGrant .select expr (by rw [hall]; rfl)
      refine ⟨_, expr, rfl, by simp, hgrant.settled.isBody, ?_⟩
      rcases Bool.or_eq_true_iff.mp hword with hw | hw
      · rw [hall, Clause.grants, if_pos hw, hfull hw]
      · have hexpr := hnone hw
        rw [hall, hexpr]
        rfl
    · exact ⟨_, body, rfl, hphrase, hbody, hread⟩
  · exact ⟨_, body, rfl, hphrase, hbody, hread⟩

/-- The permissions clause is read back from the end of a phrase. -/
theorem permissions_phrase {p : Permissions} (h : p.Writable) {ps : List Text}
    (hps : ∀ q ∈ ps, Keyword.Free "PERMISSIONS" q) :
    Clause.permissions (phrase (ps ++ permissionParts p)) = p := by
  have hsolid : Keyword.IsSolid "PERMISSIONS" := by decide
  by_cases hempty : p.isEmpty
  · have hnone : permissionParts p = [] := by rw [permissionParts, if_pos hempty]
    rw [Clause.permissions, hnone, List.append_nil, cut?_phrase_eq_none hsolid hps]
    exact (Permissions.isEmpty_iff.mp hempty).symm
  · have free : ∀ q ∈ permissionParts p, Keyword.Free "COMMENT" q :=
      forall_permissionParts (by decide) (by decide) (fun op => by cases op <;> decide)
        fun op expr he => (h.isGrant op expr he).comments
    obtain ⟨qs, body, hparts, hphrase, hbody, hread⟩ := exists_body_permissionParts h hempty
    have uncut : Keyword.cut? "COMMENT" none (phrase qs) = none :=
      cut?_phrase_eq_none (by decide) fun q hq =>
        free q (by rw [hparts]; exact List.mem_cons_of_mem _ hq)
    rw [hphrase] at uncut
    have nothing : ∀ c ∈ ([] : Text), Text.isBlank c = true := by simp
    have hclean := clean_phrase hbody nothing
    rw [List.append_nil] at hclean
    rw [Clause.permissions, hparts, cut?_phrase hsolid hps]
    simp only [hphrase, uncut, hclean, hread]

end Statement

end SchemaDrift
