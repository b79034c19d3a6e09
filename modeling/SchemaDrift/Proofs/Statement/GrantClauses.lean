import SchemaDrift.Proofs.Statement.Grants
import SchemaDrift.Proofs.Statement.Heads
import SchemaDrift.Proofs.Statement.Occurrence
import SchemaDrift.Proofs.Statement.Squeezed

namespace SchemaDrift

/-!
# Clauses of the permissions

Each clause of the permissions sets its expression for the operations it lists, and later clauses
count. Commas next to each other may separate the clauses; where blanks stand between commas, those
in front belong to the expression.
-/

/-- A clause of the permissions. -/
structure GrantClause where
  operations : List Operation
  expr : Text

/-- The permissions that the clauses set, one after the other. -/
def Permissions.apply (p : Permissions) (clauses : List GrantClause) : Permissions :=
  clauses.foldl (fun p c => p.setAll c.operations c.expr) p

namespace Statement

open Head (Begins trimStart_append_of_blank)
open Keyword

/-- Whether the text can be the expression of a clause: nothing at its ends is cut off, and no word
in it ends the clause. -/
structure IsGranted (expr : Text) : Prop where
  isBody : Clause.IsBody expr
  head : expr.head? ≠ some ','
  last : expr.getLast? ≠ some ','
  grants : Free "FOR" expr
  comments : Free "COMMENT" expr

instance (expr : Text) : Decidable (IsGranted expr) :=
  decidable_of_iff (Clause.IsBody expr ∧ expr.head? ≠ some ',' ∧ expr.getLast? ≠ some ',' ∧
      Free "FOR" expr ∧ Free "COMMENT" expr)
    ⟨fun ⟨hb, hh, hl, hg, hc⟩ => ⟨hb, hh, hl, hg, hc⟩,
      fun h => ⟨h.isBody, h.head, h.last, h.grants, h.comments⟩⟩

/-- Whether the text lists the operations, with commas between their words. -/
inductive Lists : List Operation → Text → Prop
  | last {op : Operation} {w : Text} (hw : Text.sameLetters op.keyword w = true) : Lists [op] w
  | cons {op : Operation} {ops : List Operation} {w g g' t : Text}
      (hw : Text.sameLetters op.keyword w = true) (hg : ∀ c ∈ g, Text.isBlank c = true)
      (hg' : ∀ c ∈ g', Text.isBlank c = true) (h : Lists ops t) :
      Lists (op :: ops) (w ++ (g ++ ',' :: (g' ++ t)))

/-- Whether the text is some blanks, some copies of a character, and some blanks again. -/
def IsRun (c : Char) (s : Text) : Prop :=
  ∃ a n b, s = a ++ (List.replicate n c ++ b) ∧ (∀ d ∈ a, Text.isBlank d = true) ∧
    ∀ d ∈ b, Text.isBlank d = true

/-- Whether the text is what a clause has behind its word. -/
inductive IsClause (c : GrantClause) : Text → Prop
  | clause {g ops g' : Text} (hg : IsSpace g) (hops : Lists c.operations ops) (hg' : IsSpace g')
      (hexpr : IsGranted c.expr) : IsClause c (g ++ (ops ++ (g' ++ c.expr)))

/-- Whether the text has the clauses in order, with a separator between neighbours. -/
inductive HasClauses (isSeparator : Text → Prop) : List GrantClause → Text → Prop
  | last {c : GrantClause} {t : Text} (h : IsClause c t) : HasClauses isSeparator [c] ("FOR" ++ t)
  | cons {c : GrantClause} {cs : List GrantClause} {t s r : Text} (h : IsClause c t) (hne : s ≠ [])
      (hs : isSeparator s) (hcs : HasClauses isSeparator cs r) :
      HasClauses isSeparator (c :: cs) ("FOR" ++ (t ++ (s ++ r)))

/-- What may stand behind the last clause: semicolons or a comment. -/
inductive IsTail : Text → Prop
  | semicolons {s : Text} (hs : IsRun ';' s) : IsTail s
  | comment {g r : Text} (hg : IsSpace g) (hr : isEdge r.head? = true) :
      IsTail (g ++ ("COMMENT" ++ r))

/-- Whether the text is a permissions clause with these clauses. -/
inductive IsPermissions (isSeparator : Text → Prop) (cs : List GrantClause) : Text → Prop
  | clause {g body tail : Text} (hg : IsSpace g) (hcs : HasClauses isSeparator cs body)
      (htail : IsTail tail) : IsPermissions isSeparator cs ("PERMISSIONS" ++ (g ++ (body ++ tail)))

variable {op : Operation} {ops : List Operation} {c : GrantClause} {cs : List GrantClause}
  {expr g k r s t w : Text} {isSeparator : Text → Prop}

/-! ## Words of operations -/

theorem isAlpha_of_toLower {d : Char} (h : d.toLower.isAlpha = true) : d.isAlpha = true := by
  unfold Char.toLower at h
  split at h
  · rename_i hd
    have upper : d.isUpper = true := decide_eq_true hd
    exact Bool.or_eq_true_iff.mpr (.inl upper)
  · exact h

theorem isAlpha_of_sameLetters (h : Text.sameLetters op.keyword w = true) :
    ∀ d ∈ w, d.isAlpha = true := by
  intro d hd
  have hmap : op.keyword.map Char.toLower = w.map Char.toLower := beq_iff_eq.mp h
  have letters : ∀ e ∈ op.keyword.map Char.toLower, e.isAlpha = true := by cases op <;> decide
  exact isAlpha_of_toLower (letters _ (hmap ▸ List.mem_map_of_mem hd))

theorem ofKeyword?_of_sameLetters (h : Text.sameLetters op.keyword w = true) :
    Operation.ofKeyword? w = some op := by
  have hmap : op.keyword.map Char.toLower = w.map Char.toLower := beq_iff_eq.mp h
  have same : (fun a : Operation => Text.sameLetters a.keyword w) =
      fun a => Text.sameLetters a.keyword op.keyword := by
    simp only [Text.sameLetters, hmap]
  rw [← Operation.ofKeyword?_keyword op, Operation.ofKeyword?, Operation.ofKeyword?, same]

theorem isEdge_eq_false_of_isAlpha {d : Char} (h : d.isAlpha = true) : isEdge (some d) = false := by
  have comma : d ≠ ',' := by
    rintro rfl
    cases h
  have semicolon : d ≠ ';' := by
    rintro rfl
    cases h
  simp [isEdge, Clause.isBlank_of_isAlpha h, comma, semicolon]

theorem isSolid_of_sameLetters (h : Text.sameLetters op.keyword w = true) : IsSolid w := by
  refine ⟨?_, fun d hd => isEdge_eq_false_of_isAlpha (isAlpha_of_sameLetters h d hd)⟩
  rintro rfl
  revert h
  cases op <;> decide

theorem isAlpha_eq_false_of_isEdge {r : Text} (h : isEdge r.head? = true) :
    ∀ d ∈ r.head?, d.isAlpha = false := by
  rintro d hd
  cases ha : d.isAlpha with
  | false => rfl
  | true =>
    rw [Option.mem_def.mp hd, isEdge_eq_false_of_isAlpha ha] at h
    cases h

/-- In front of an edge, the word is read off as a whole. -/
theorem takeWhile_word (hw : Text.sameLetters op.keyword w = true) (hr : isEdge r.head? = true) :
    (w ++ r).takeWhile Char.isAlpha = w ∧ (w ++ r).dropWhile Char.isAlpha = r := by
  have alpha := isAlpha_of_sameLetters hw
  rw [List.takeWhile_append_of_pos alpha, List.dropWhile_append_of_pos alpha]
  cases r with
  | nil => simp
  | cons d r => simp [isAlpha_eq_false_of_isEdge hr d rfl]

theorem begins_word (hw : Text.sameLetters op.keyword w = true) (r : Text) : Begins (w ++ r) := by
  have alpha := isAlpha_of_sameLetters hw
  obtain ⟨d, w', rfl⟩ := List.exists_cons_of_ne_nil (isSolid_of_sameLetters hw).1
  rintro _ ⟨⟩
  exact Clause.isBlank_of_isAlpha (alpha d List.mem_cons_self)

theorem Lists.begins (h : Lists ops t) (r : Text) : Begins (t ++ r) := by
  cases h with
  | last hw => exact begins_word hw r
  | cons hw =>
    rw [List.append_assoc]
    exact begins_word hw _

theorem isEdge_head_comma (hg : ∀ d ∈ g, Text.isBlank d = true) (r : Text) :
    isEdge (g ++ ',' :: r).head? = true := by
  cases g with
  | nil => rfl
  | cons d g => exact Keyword.isEdge_of_isBlank (hg d List.mem_cons_self)

/-- The operations are read up to the expression behind them. -/
theorem Lists.operations_eq (h : Lists ops t) (hg : IsSpace g) (hbegins : Begins expr)
    (hcomma : expr.head? ≠ some ',') : Clause.operations (t ++ (g ++ expr)) = (ops, expr) := by
  induction h with
  | @last op w hw =>
    obtain ⟨htake, hdrop⟩ := takeWhile_word hw (hg.isEdge_head expr)
    rw [Clause.operations_eq, htake, hdrop, ofKeyword?_of_sameLetters hw,
      trimStart_append_of_blank hg.2 hbegins]
    cases expr with
    | nil => rfl
    | cons d expr =>
      have : d ≠ ',' := fun h => hcomma (congrArg some h)
      simp [this]
  | @cons op ops w a b t hw ha hb h ih =>
    have regroup : w ++ (a ++ ',' :: (b ++ t)) ++ (g ++ expr) =
        w ++ (a ++ ',' :: (b ++ (t ++ (g ++ expr)))) := by simp
    obtain ⟨htake, hdrop⟩ := takeWhile_word hw (isEdge_head_comma ha (b ++ (t ++ (g ++ expr))))
    have comma : Begins (',' :: (b ++ (t ++ (g ++ expr)))) := by
      rintro _ ⟨⟩
      rfl
    rw [regroup, Clause.operations_eq, htake, hdrop, ofKeyword?_of_sameLetters hw,
      trimStart_append_of_blank ha comma]
    simp only [trimStart_append_of_blank hb (h.begins _), ih]
    rfl

/-- A word that is none of an operation stands in no list of operations. -/
theorem Lists.free (h : Lists ops t) (hk : IsSolid k)
    (hne : ∀ op : Operation, Text.sameLetters op.keyword k = false) : Free k t := by
  have word {op : Operation} {w : Text} (hw : Text.sameLetters op.keyword w = true) : Free k w :=
    free_of_ne (isSolid_of_sameLetters hw) (by rintro rfl; rw [hne op] at hw; cases hw)
  induction h with
  | last hw => exact word hw
  | @cons op ops w a b t hw ha hb h ih =>
    have edges : ∀ d ∈ a ++ ',' :: b, isEdge (some d) = true := by
      simp only [List.forall_mem_append, List.forall_mem_cons]
      exact ⟨fun d hd => Keyword.isEdge_of_isBlank (ha d hd), rfl,
        fun d hd => Keyword.isEdge_of_isBlank (hb d hd)⟩
    have joined := free_joined hk (word hw) (by simp) edges ih
    rwa [List.append_assoc, List.cons_append] at joined

/-! ## Runs of a character -/

/-- A run of a character behind a text is taken away when the text does not end with it. -/
theorem trim_run {d : Char} (hd : Text.isBlank d = false) (ht : Text.IsTrimmed t)
    (hlast : t.getLast? ≠ some d) (hg : ∀ e ∈ g, Text.isBlank e = true) (hs : IsRun d s) :
    Text.trimEnd (Text.dropEndWhile (· == d) (Text.trim (g ++ (t ++ s)))) = t := by
  obtain ⟨a, n, b, rfl, ha, hb⟩ := hs
  have trimmed : Text.trimEnd (t ++ a) = t := by
    rw [Text.trimEnd, Text.dropEndWhile_append_of_all t ha]
    exact Text.dropEndWhile_eq_self_iff.mpr (Text.isTrimmed_iff.mp ht).2.2
  have whole : Text.trim (g ++ (t ++ (a ++ (List.replicate n d ++ b)))) =
      Text.trimEnd (t ++ a ++ List.replicate n d) := by
    rw [Text.trim, trimStart_append_of_blank hg (Head.begins_append ht _), Text.trimEnd,
      Text.trimEnd, ← Text.dropEndWhile_append_of_all (t ++ a ++ List.replicate n d) hb]
    simp only [List.append_assoc]
  have kept : Text.dropEndWhile (· == d) (t ++ a) = t ++ a := by
    refine Text.dropEndWhile_eq_self_iff.mpr fun e he => beq_eq_false_iff_ne.mpr ?_
    rintro rfl
    rcases List.eq_nil_or_concat' a with rfl | ⟨a, f, rfl⟩
    · exact hlast (by simpa using he)
    · rw [← List.append_assoc, List.getLast?_concat] at he
      rw [ha e (by simp [Option.some.inj he])] at hd
      cases hd
  rw [whole]
  cases n with
  | zero =>
    have unended : Text.dropEndWhile (· == d) t = t := by
      refine Text.dropEndWhile_eq_self_iff.mpr fun e he => beq_eq_false_iff_ne.mpr ?_
      rintro rfl
      exact hlast he
    have plain := Text.dropEndWhile_eq_self_iff.mpr (Text.isTrimmed_iff.mp ht).2.2
    rw [List.replicate_zero, List.append_nil, trimmed, unended]
    exact plain
  | succ n =>
    have solid : Text.trimEnd (t ++ a ++ List.replicate (n + 1) d) =
        t ++ a ++ List.replicate (n + 1) d := by
      refine Text.dropEndWhile_eq_self_iff.mpr fun e he => ?_
      rw [List.replicate_succ', ← List.append_assoc, List.getLast?_concat] at he
      exact Option.some.inj he ▸ hd
    have run : ∀ e ∈ List.replicate (n + 1) d, (e == d) = true := fun e he =>
      beq_iff_eq.mpr (List.eq_of_mem_replicate he)
    rw [solid, Text.dropEndWhile_append_of_all _ run, kept, trimmed]

theorem IsRun.isEdge {d : Char} (hd : Keyword.isEdge (some d) = true) (hs : IsRun d s) :
    ∀ e ∈ s, Keyword.isEdge (some e) = true := by
  obtain ⟨a, n, b, rfl, ha, hb⟩ := hs
  simp only [List.forall_mem_append]
  exact ⟨fun e he => Keyword.isEdge_of_isBlank (ha e he),
    fun e he => List.eq_of_mem_replicate he ▸ hd, fun e he => Keyword.isEdge_of_isBlank (hb e he)⟩

/-! ## Clauses -/

theorem isBody_word (hw : Text.sameLetters op.keyword w = true) : Clause.IsBody w := by
  have solid := isSolid_of_sameLetters hw
  refine ⟨Text.isTrimmed_of_forall_not_blank solid.1 fun d hd =>
    Clause.isBlank_of_isAlpha (isAlpha_of_sameLetters hw d hd), fun h => ?_⟩
  have := solid.2 ';' (List.mem_of_mem_getLast? h)
  revert this
  decide

theorem Lists.isBody (h : Lists ops t) : Clause.IsBody t := by
  induction h with
  | last hw => exact isBody_word hw
  | @cons op ops w a b t hw ha hb h ih =>
    have joined := (isBody_word hw).append (a ++ ',' :: b) ih
    rwa [List.append_assoc, List.cons_append] at joined

namespace IsClause

theorem free (h : IsClause c t) (hk : IsSolid k)
    (hne : ∀ op : Operation, Text.sameLetters op.keyword k = false) (hexpr : Free k c.expr) :
    Free k t := by
  obtain ⟨hg, hops, hg', -⟩ := h
  have joined := free_joined hk (hops.free hk hne) hg'.1
    (fun d hd => Keyword.isEdge_of_isBlank (hg'.2 d hd)) hexpr
  rw [free_iff, cut?_edges_append hk fun d hd => Keyword.isEdge_of_isBlank (hg.2 d hd),
    free_iff.mp joined]
  rfl

theorem isEdge_head (h : IsClause c t) (r : Text) : isEdge (t ++ r).head? = true := by
  obtain ⟨hg, -, -, -⟩ := h
  rw [List.append_assoc]
  exact hg.isEdge_head _

theorem isBody (h : IsClause c t) : Clause.IsBody ("FOR" ++ t) := by
  have word : Clause.IsBody "FOR" := by decide
  obtain ⟨hg, hops, hg', hexpr⟩ := h
  exact word.append _ (hops.isBody.append _ hexpr.isBody)

/-- A clause sets its expression for the operations it lists. -/
theorem grant_append (h : IsClause c t) (hs : IsRun ',' s) (p : Permissions) :
    Clause.grant p (t ++ s) = p.setAll c.operations c.expr := by
  obtain @⟨g, ops, g', hg, hops, hg', hexpr⟩ := h
  have trimmed := hops.isBody.1.append g' hexpr.isBody.1
  have last : (ops ++ (g' ++ c.expr)).getLast? ≠ some ',' := by
    have hne := hexpr.isBody.1.ne_nil
    rw [List.getLast?_append_of_ne_nil _ (by simp [hne]), List.getLast?_append_of_ne_nil _ hne]
    exact hexpr.last
  have cut := trim_run (d := ',') rfl trimmed last hg.2 hs
  have begins := (Text.isTrimmed_iff.mp hexpr.isBody.1).2.1
  have nonempty : c.expr.isEmpty = false := by simpa using hexpr.isBody.1.ne_nil
  rw [List.append_assoc, Clause.grant]
  simp only [cut, hops.operations_eq hg' begins hexpr.head, hexpr.isBody.1.trim_eq, nonempty]
  rfl

end IsClause

theorem isRun_nil (d : Char) : IsRun d [] := ⟨[], 0, [], rfl, by simp, by simp⟩

namespace HasClauses

theorem free_comment (h : HasClauses (IsRun ',') cs t) : Free "COMMENT" t := by
  have solid : IsSolid "COMMENT" := by decide
  have other (op : Operation) : Text.sameLetters op.keyword "COMMENT" = false := by
    cases op <;> decide
  have word : cut? "COMMENT" none "FOR" = none := free_iff.mp (by decide)
  have free {c : GrantClause} {t : Text} (h : IsClause c t) : Free "COMMENT" t :=
    h.free solid other (by obtain ⟨-, -, -, hexpr⟩ := h; exact hexpr.comments)
  induction h with
  | @last c t h =>
    have edge : isEdge (t ++ []).head? = true := h.isEdge_head []
    rw [List.append_nil] at edge
    rw [free_iff, cut?_append solid word edge, free_iff.mp (free h)]
    rfl
  | @cons c cs t s r h hne hs hcs ih =>
    have joined := free_joined solid (free h) hne (hs.isEdge rfl) ih
    rw [free_iff, cut?_append solid word (h.isEdge_head _), free_iff.mp joined]
    rfl

theorem isBody (h : HasClauses (IsRun ',') cs t) : Clause.IsBody t := by
  induction h with
  | last h => exact h.isBody
  | @cons c cs t s r h hne hs hcs ih =>
    rw [← List.append_assoc]
    exact h.isBody.append s ih

/-- Cut apart at the words of the clauses, the text gives the clauses one by one. -/
theorem exists_split (h : HasClauses (IsRun ',') cs t) : ∃ parts,
    split "FOR" 0 none t = [] :: parts ∧ ∀ p, parts.foldl Clause.grant p = p.apply cs := by
  have other (op : Operation) : Text.sameLetters op.keyword "FOR" = false := by cases op <;> decide
  have free {c : GrantClause} {t : Text} (h : IsClause c t) : cut? "FOR" none t = none :=
    free_iff.mp (h.free isSolid_for other (by obtain ⟨-, -, -, hexpr⟩ := h; exact hexpr.grants))
  induction h with
  | @last c t h =>
    have edge : isEdge (t ++ []).head? = true := h.isEdge_head []
    refine ⟨[t ++ []], ?_, h.grant_append (isRun_nil ',')⟩
    rw [split_self isSolid_for rfl (by rwa [List.append_nil] at edge), ← List.append_nil t,
      split_append isSolid_for (free h) rfl]
    simp [split]
  | @cons c cs t s r h hne hs hcs ih =>
    obtain ⟨parts, hsplit, hfold⟩ := ih
    refine ⟨(t ++ s) :: parts, ?_, fun p => ?_⟩
    · have edges := hs.isEdge (d := ',') rfl
      have edge : isEdge (s ++ r).head? = true := by
        obtain ⟨d, s, rfl⟩ := List.exists_cons_of_ne_nil hne
        exact edges d List.mem_cons_self
      rw [split_self isSolid_for rfl (h.isEdge_head _), split_append isSolid_for (free h) edge,
        split_edges_append isSolid_for edges, hsplit, Text.prepend_cons, List.append_nil,
        Text.prepend_cons]
    · rw [List.foldl_cons, h.grant_append hs, hfold]
      rfl

theorem grants_eq (h : HasClauses (IsRun ',') cs t) :
    Clause.grants t = Permissions.empty.apply cs := by
  obtain ⟨parts, hsplit, hfold⟩ := h.exists_split
  have other (r : Text) : Text.sameLetters ("FOR" ++ r) "FULL" = false ∧
      Text.sameLetters ("FOR" ++ r) "NONE" = false := ⟨rfl, rfl⟩
  have words : Text.sameLetters t "FULL" = false ∧ Text.sameLetters t "NONE" = false := by
    cases h with
    | last h => exact other _
    | cons h => exact other _
  rw [Clause.grants, words.1, words.2, hsplit]
  exact hfold .empty

end HasClauses

/-- The permissions are read by setting the expressions of the clauses in their order, when blanks
and commas next to each other separate the clauses. -/
theorem permissions_eq_apply (h : IsPermissions (IsRun ',') cs t) :
    Clause.permissions t = Permissions.empty.apply cs := by
  have permissions : IsSolid "PERMISSIONS" := by decide
  have comment : IsSolid "COMMENT" := by decide
  obtain @⟨g, body, tail, hg, hcs, htail⟩ := h
  have gap : ∀ d ∈ g, isEdge (some d) = true := fun d hd => Keyword.isEdge_of_isBlank (hg.2 d hd)
  rw [Clause.permissions, cut?_self permissions rfl (hg.isEdge_head _)]
  cases htail with
  | semicolons hs =>
    have free := (free_surrounded comment gap (hs.isEdge rfl)).mpr hcs.free_comment
    have clean : Clause.clean (g ++ (body ++ tail)) = body :=
      trim_run (d := ';') rfl hcs.isBody.1 hcs.isBody.2 hg.2 hs
    simp only [free_iff.mp free, clean, hcs.grants_eq]
  | @comment g' r hg' hr =>
    have gap' : ∀ d ∈ g', isEdge (some d) = true := fun d hd =>
      Keyword.isEdge_of_isBlank (hg'.2 d hd)
    have last : isEdge (g ++ (body ++ g')).getLast? = true := by
      obtain ⟨v, e, rfl⟩ := List.eq_nil_or_concat' g' |>.resolve_left hg'.1
      rw [← List.append_assoc, ← List.append_assoc, List.getLast?_concat]
      exact gap' e (by simp)
    have hcut : cut? "COMMENT" none (g ++ (body ++ (g' ++ ("COMMENT" ++ r)))) =
        some (g ++ (body ++ g'), r) :=
      (cut?_eq_some_iff comment).mpr ⟨by simp only [List.append_assoc],
        (free_surrounded comment gap gap').mpr hcs.free_comment, last, hr⟩
    simp only [hcut, Clause.clean_surrounded hcs.isBody hg.2 hg'.2, hcs.grants_eq]

/-- Clauses for a post: the one for selecting is replaced later. -/
def postClauses : List GrantClause :=
  [⟨[.select], "FULL"⟩, ⟨[.create, .update], "WHERE owner, $auth"⟩, ⟨[.select], "NONE"⟩]

def postPermissions : Text :=
  "PERMISSIONS FOR select FULL, FOR Create ,update WHERE owner, $auth\nFOR SELECT NONE;"

theorem isPermissions_post : IsPermissions (IsRun ',') postClauses postPermissions := by
  have select : Lists [.select] "select" := .last (by decide)
  have again : Lists [.select] "SELECT" := .last (by decide)
  have create : Lists [.create, .update] "Create ,update" :=
    @Lists.cons .create [.update] "Create" " " "" "update" (by decide) (by decide) (by decide)
      (.last (by decide))
  have first : IsClause ⟨[.select], "FULL"⟩ " select FULL" :=
    @IsClause.clause ⟨[.select], "FULL"⟩ " " "select" " " (by decide) select (by decide) (by decide)
  have second : IsClause ⟨[.create, .update], "WHERE owner, $auth"⟩
      " Create ,update WHERE owner, $auth" :=
    @IsClause.clause ⟨[.create, .update], "WHERE owner, $auth"⟩ " " "Create ,update" " " (by decide)
      create (by decide) (by decide)
  have third : IsClause ⟨[.select], "NONE"⟩ " SELECT NONE" :=
    @IsClause.clause ⟨[.select], "NONE"⟩ " " "SELECT" " " (by decide) again (by decide) (by decide)
  have comma : IsRun ',' ", " := ⟨[], 1, " ", rfl, by simp, by decide⟩
  have newline : IsRun ',' "\n" := ⟨"\n", 0, [], rfl, by decide, by simp⟩
  have body := HasClauses.cons first (by decide) comma
    (HasClauses.cons second (by decide) newline (HasClauses.last third))
  exact @IsPermissions.clause (IsRun ',') postClauses " " _ ";" (by decide) body
    (.semicolons ⟨[], 1, [], rfl, by simp, by simp⟩)

theorem permissions_eq_apply_post :
    IsPermissions (IsRun ',') postClauses postPermissions ∧
      Clause.permissions postPermissions =
        ⟨some "NONE", some "WHERE owner, $auth", some "WHERE owner, $auth", none⟩ :=
  ⟨isPermissions_post, permissions_eq_apply isPermissions_post⟩

/-- Whether the text is a separator of blanks and commas in any order. -/
def IsMixed (s : Text) : Prop := ∀ d ∈ s, Text.isBlank d = true ∨ d = ','

instance (s : Text) : Decidable (IsMixed s) :=
  inferInstanceAs (Decidable (∀ d ∈ s, Text.isBlank d = true ∨ d = ','))

/-- Of commas with a blank between them, only the last is taken off the expression. -/
theorem not_forall_permissions_eq_apply : ¬ ∀ (cs : List GrantClause) (t : Text),
    IsPermissions IsMixed cs t → Clause.permissions t = Permissions.empty.apply cs := by
  intro h
  have first : IsClause ⟨[.select], "FULL"⟩ " select FULL" :=
    @IsClause.clause ⟨[.select], "FULL"⟩ " " "select" " " (by decide)
      (.last (by decide)) (by decide)
      (by decide)
  have second : IsClause ⟨[.create], "NONE"⟩ " create NONE" :=
    @IsClause.clause ⟨[.create], "NONE"⟩ " " "create" " " (by decide)
      (.last (by decide)) (by decide)
      (by decide)
  have separator : IsMixed " , , " := by decide
  have body := HasClauses.cons first (by decide) separator (HasClauses.last second)
  have whole : IsPermissions IsMixed [⟨[.select], "FULL"⟩, ⟨[.create], "NONE"⟩]
      "PERMISSIONS FOR select FULL , , FOR create NONE" :=
    @IsPermissions.clause IsMixed _ " " _ [] (by decide) body
      (.semicolons ⟨[], 0, [], rfl, by simp, by simp⟩)
  have kept := congrArg Permissions.select (h _ _ whole)
  revert kept
  decide +kernel

end Statement

end SchemaDrift
