import SchemaDrift.Proofs.Statement.Spans

namespace SchemaDrift.Script

/-!
# Joined scripts

A semicolon outside quotes and comments and at no positive bracket depth ends a statement, but it
leaves the depth as it is. A script behind it is read on from that depth: where a statement closes
more brackets than it opens, semicolons that stand in so many brackets later on end statements too.
-/

/-- What the scan of a script is inside of behind a text. -/
def modeAfter (mode : Mode) : Text → Mode
  | [] => mode
  | c :: cs =>
    match mode with
    | .comment => modeAfter (if c = '\n' then .code else .comment) cs
    | .escaped q => modeAfter (.quoted q) cs
    | .quoted q =>
      modeAfter (if c = '\\' then .escaped q else if c = q then .code else .quoted q) cs
    | .code =>
      if isQuote c then modeAfter (.quoted c) cs
      else if startsComment c cs.head? then modeAfter .comment cs
      else modeAfter .code cs

/-- The bracket depths at which semicolons stand outside quotes and comments. -/
def semicolons (mode : Mode) (depth : Int) : Text → List Int
  | [] => []
  | c :: cs =>
    match mode with
    | .comment => semicolons (if c = '\n' then .code else .comment) depth cs
    | .escaped q => semicolons (.quoted q) depth cs
    | .quoted q =>
      semicolons (if c = '\\' then .escaped q else if c = q then .code else .quoted q) depth cs
    | .code =>
      if isQuote c then semicolons (.quoted c) depth cs
      else if startsComment c cs.head? then semicolons .comment depth cs
      else if c = ';' then depth :: semicolons .code depth cs
      else semicolons .code (depth + bracket c) cs

theorem consHead_append (c : Char) {ps : List Text} (h : ps ≠ []) (qs : List Text) :
    Text.consHead c (ps ++ qs) = Text.consHead c ps ++ qs := by
  cases ps with
  | nil => exact absurd rfl h
  | cons p ps => rfl

/-- A semicolon that ends a statement separates the pieces before it from those after it. -/
theorem pieces_append_semicolon (rest : Text) {mode : Mode} {depth : Int} {t : Text}
    (hmode : modeAfter mode t = .code) (hdepth : depth + balance mode t ≤ 0) :
    pieces mode depth (t ++ ';' :: rest) =
      pieces mode depth t ++ pieces .code (depth + balance mode t) rest := by
  have tail : NoCommentTail (';' :: rest) := by
    rintro _ ⟨⟩
    decide
  induction t generalizing mode depth with
  | nil =>
    cases hmode
    have level : depth ≤ 0 := by simpa [balance] using hdepth
    simp [pieces, balance, isQuote, startsComment, level]
  | cons c cs ih =>
    rw [List.cons_append]
    cases mode with
    | comment => exact ih hmode hdepth
    | escaped q =>
      rw [pieces, ih hmode hdepth, consHead_append c (pieces_ne_nil _ _ _)]
      rfl
    | quoted q =>
      simp only [pieces]
      rw [ih hmode hdepth, consHead_append c (pieces_ne_nil _ _ _)]
      rfl
    | code =>
      rw [modeAfter] at hmode
      rw [balance] at hdepth ⊢
      rw [pieces, pieces, startsComment_append tail]
      cases hq : isQuote c with
      | true =>
        simp only [hq, if_true] at hmode hdepth ⊢
        rw [ih hmode hdepth, consHead_append c (pieces_ne_nil _ _ _)]
      | false =>
        cases hc : startsComment c cs.head? with
        | true =>
          simp only [hq, hc, if_true, Bool.false_eq_true, if_false] at hmode hdepth ⊢
          exact ih hmode hdepth
        | false =>
          simp only [hq, hc, Bool.false_eq_true, if_false] at hmode hdepth ⊢
          by_cases hd : c = ';' ∧ depth ≤ 0
          · obtain ⟨rfl, hd⟩ := hd
            have level : bracket ';' = 0 := rfl
            rw [level, Int.zero_add] at hdepth ⊢
            rw [if_pos ⟨rfl, hd⟩, if_pos ⟨rfl, hd⟩, ih hmode hdepth]
            rfl
          · rw [← Int.add_assoc] at hdepth ⊢
            rw [if_neg hd, if_neg hd, ih hmode hdepth, consHead_append c (pieces_ne_nil _ _ _)]

theorem statementsIn_append (ps qs : List Text) :
    statementsIn (ps ++ qs) = statementsIn ps ++ statementsIn qs := by
  rw [statementsIn, List.map_append, List.filter_append, statementsIn, statementsIn]

/-! ## Scripts at another depth -/

/-- A script is cut alike from a lower depth if no semicolon is in so many brackets only. -/
theorem pieces_of_semicolons {below : Int} (hbelow : below ≤ 0) {mode : Mode}
    {depth : Int} {t : Text} (h : ∀ e ∈ semicolons mode depth t, e ≤ 0 ∨ 0 < e + below) :
    pieces mode (depth + below) t = pieces mode depth t := by
  induction t generalizing mode depth with
  | nil => rfl
  | cons c cs ih =>
    cases mode with
    | comment => exact ih h
    | escaped q => exact congrArg (Text.consHead c) (ih h)
    | quoted q => exact congrArg (Text.consHead c) (ih h)
    | code =>
      rw [semicolons] at h
      rw [pieces, pieces]
      by_cases hq : isQuote c = true
      · rw [if_pos hq] at h ⊢
        rw [if_pos hq, ih h]
      rw [if_neg hq] at h ⊢
      rw [if_neg hq]
      by_cases hc : startsComment c cs.head? = true
      · rw [if_pos hc] at h ⊢
        rw [if_pos hc, ih h]
      rw [if_neg hc] at h ⊢
      rw [if_neg hc]
      by_cases hsemicolon : c = ';'
      · subst hsemicolon
        rw [if_pos rfl] at h
        obtain ⟨here, rest⟩ := List.forall_mem_cons.mp h
        have level : bracket ';' = 0 := rfl
        simp only [level, Int.add_zero, true_and, ih rest]
        refine if_congr (by omega) rfl rfl
      · rw [if_neg hsemicolon] at h
        rw [if_neg fun hd => hsemicolon hd.1, if_neg fun hd => hsemicolon hd.1, Int.add_right_comm,
          ih h]

/-- The semicolons that end statements from a lower depth alone. -/
def exposed (below : Int) (depths : List Int) : List Int :=
  depths.filter fun e => 0 < e ∧ e + below ≤ 0

theorem exposed_eq_nil_iff {below : Int} {depths : List Int} :
    exposed below depths = [] ↔ ∀ e ∈ depths, e ≤ 0 ∨ 0 < e + below := by
  rw [exposed, List.filter_eq_nil_iff]
  refine forall₂_congr fun e _ => ?_
  rw [decide_eq_true_iff]
  omega

theorem count_flatten_consHead (a c : Char) (ps : List Text) :
    (Text.consHead c ps).flatten.count a = ps.flatten.count a + if c = a then 1 else 0 := by
  rw [Text.flatten_consHead, List.count_cons]
  simp only [beq_iff_eq]

/-- From a lower depth the pieces lack the semicolons that end statements there alone. -/
theorem count_flatten_pieces {below : Int} (hbelow : below ≤ 0) (mode : Mode) (depth : Int)
    (t : Text) : (pieces mode (depth + below) t).flatten.count ';' +
      (exposed below (semicolons mode depth t)).length =
        (pieces mode depth t).flatten.count ';' := by
  induction t generalizing mode depth with
  | nil => rfl
  | cons c cs ih =>
    cases mode with
    | comment => exact ih _ depth
    | escaped q =>
      have rest := ih (.quoted q) depth
      simp only [pieces, semicolons, count_flatten_consHead]
      omega
    | quoted q =>
      have rest := ih (if c = '\\' then .escaped q else if c = q then .code else .quoted q) depth
      simp only [pieces, semicolons, count_flatten_consHead]
      omega
    | code =>
      rw [semicolons, pieces, pieces]
      by_cases hq : isQuote c = true
      · have rest := ih (.quoted c) depth
        simp only [if_pos hq, count_flatten_consHead]
        omega
      by_cases hc : startsComment c cs.head? = true
      · simp only [if_neg hq, if_pos hc]
        exact ih .comment depth
      by_cases hsemicolon : c = ';'
      · subst hsemicolon
        have level : bracket ';' = 0 := rfl
        have rest := ih .code depth
        simp only [if_neg hq, if_neg hc, level, Int.add_zero, true_and, if_true, exposed,
          List.filter_cons, decide_eq_true_eq] at rest ⊢
        split_ifs with h₁ h₂ h₃ <;>
          simp only [List.flatten_cons, List.nil_append, count_flatten_consHead, if_true,
            List.length_cons] <;> omega
      · have rest := ih .code (depth + bracket c)
        rw [Int.add_right_comm] at rest
        simp only [if_neg hq, if_neg hc, hsemicolon, false_and, if_false, count_flatten_consHead]
        omega

theorem count_dropWhile {p : Char → Bool} {a : Char} (h : p a = false) (t : Text) :
    (t.dropWhile p).count a = t.count a := by
  have front : (t.takeWhile p).count a = 0 := List.count_eq_zero.mpr fun ha => by
    rw [List.mem_takeWhile_imp ha] at h
    cases h
  rw [← Nat.zero_add ((t.dropWhile p).count a), ← front, ← List.count_append,
    List.takeWhile_append_dropWhile]

theorem count_trim {a : Char} (h : Text.isBlank a = false) (t : Text) :
    (Text.trim t).count a = t.count a := by
  rw [Text.trim, Text.trimEnd, Text.dropEndWhile_eq_rdropWhile, List.rdropWhile, List.count_reverse,
    count_dropWhile h, List.count_reverse, Text.trimStart, count_dropWhile h]

theorem count_flatten_statementsIn {a : Char} (h : Text.isBlank a = false) (ps : List Text) :
    (statementsIn ps).flatten.count a = ps.flatten.count a := by
  induction ps with
  | nil => rfl
  | cons p ps ih =>
    have single : (statementsIn [p]).flatten.count a = p.count a := by
      rw [← count_trim h p]
      cases hp : Text.trim p <;> simp [statementsIn, hp]
    rw [statementsIn_cons, List.flatten_append, List.count_append, single, ih, List.flatten_cons,
      List.count_append]

/-- A script is split alike from a lower depth just if no semicolon ends a statement there alone. -/
theorem statementsIn_pieces_eq_iff {below : Int} (hbelow : below ≤ 0) (t : Text) :
    statementsIn (pieces .code below t) = statements t ↔
      ∀ e ∈ semicolons .code 0 t, e ≤ 0 ∨ 0 < e + below := by
  constructor
  · intro h
    have counts := count_flatten_pieces hbelow .code 0 t
    have kept := congrArg (fun ss : List Text => ss.flatten.count ';') h
    have solid : Text.isBlank ';' = false := by decide
    simp only [statements, ← statementsIn.eq_1, count_flatten_statementsIn solid] at kept
    rw [Int.zero_add] at counts
    exact exposed_eq_nil_iff.mp (List.length_eq_zero_iff.mp (by omega))
  · intro h
    have same := pieces_of_semicolons hbelow h
    rw [Int.zero_add] at same
    rw [same]
    rfl

/-- Let the scan of a script end outside quotes and comments at a depth that is not positive, so
that a semicolon behind it ends a statement. What follows is read on from this depth, and is split
as it is on its own just if no semicolon in it stands in brackets of which there are so few that the
depth makes up for them. This holds of everything that can follow just if the depth is that of the
start. -/
theorem statements_append_semicolon_iff {a : Text} (hmode : modeAfter .code a = .code)
    (hdepth : balance .code a ≤ 0) :
    (∀ b, statements (a ++ ';' :: b) =
      statements a ++ statementsIn (pieces .code (balance .code a) b)) ∧
    (∀ b, statements (a ++ ';' :: b) = statements a ++ statements b ↔
      ∀ e ∈ semicolons .code 0 b, e ≤ 0 ∨ 0 < e + balance .code a) ∧
    ((∀ b, statements (a ++ ';' :: b) = statements a ++ statements b) ↔ balance .code a = 0) := by
  have split (b : Text) : statements (a ++ ';' :: b) =
      statements a ++ statementsIn (pieces .code (balance .code a) b) := by
    have below : 0 + balance .code a ≤ 0 := by omega
    have cut := pieces_append_semicolon b hmode below
    rw [Int.zero_add] at cut
    exact (congrArg statementsIn cut).trans (statementsIn_append _ _)
  have alike (b : Text) : statements (a ++ ';' :: b) = statements a ++ statements b ↔
      ∀ e ∈ semicolons .code 0 b, e ≤ 0 ∨ 0 < e + balance .code a := by
    rw [split, List.append_cancel_left_eq, statementsIn_pieces_eq_iff hdepth]
  refine ⟨split, alike, fun h => ?_, fun h b => (alike b).mpr fun e _ => by omega⟩
  -- A semicolon in one bracket tells a lower depth from that of the start.
  have inner : (1 : Int) ∈ semicolons .code 0 "(;" := by decide
  have := (alike "(;").mp (h "(;") 1 inner
  omega

/-- A statement with a bracket too many, behind a comment and in front of a quote. -/
def overclosed : Text := "DEFINE TABLE t; -- \x7d\nDEFINE FIELD f ON t VALUE [';(']]"

theorem statements_append_semicolon_iff_overclosed :
    modeAfter .code overclosed = .code ∧ balance .code overclosed ≤ 0 ∧
      statements (overclosed ++ ';' :: "DEFINE EVENT e ON t THEN \x7b [1; 2] \x7d") =
        statements overclosed ++ statements "DEFINE EVENT e ON t THEN \x7b [1; 2] \x7d" := by
  have mode : modeAfter .code overclosed = .code := by decide +kernel
  have depth : balance .code overclosed ≤ 0 := by decide +kernel
  obtain ⟨-, alike, -⟩ := statements_append_semicolon_iff mode depth
  exact ⟨mode, depth, (alike _).mpr (by decide +kernel)⟩

/-- Behind a surplus bracket, a semicolon inside of brackets ends a statement. -/
theorem not_statements_append_semicolon :
    ¬∀ a b, modeAfter .code a = .code → balance .code a ≤ 0 →
      statements (a ++ ';' :: b) = statements a ++ statements b := by
  intro h
  have split := h "DEFINE FIELD f ON t DEFAULT f(1))" "DEFINE EVENT e ON t THEN \x7b a; b \x7d"
    (by decide +kernel) (by decide +kernel)
  exact absurd split (by decide +kernel)

end SchemaDrift.Script
