import SchemaDrift.Proofs.Text.Parts
import SchemaDrift.Proofs.Text.Trimmed
import SchemaDrift.Statement.Script

namespace SchemaDrift.Script

/-!
# Closed texts

A closed text leaves the scan of a script where it found it: outside quotes, outside brackets, and
without an end of a statement or a comment on the way. A script of closed statements is split into
just these statements.
-/

/-- Where the scan of a script stands behind a text. There is no answer if the text starts a comment
or ends a statement. -/
def scan (mode : Mode) (depth : Int) : Text → Option (Mode × Int)
  | [] => some (mode, depth)
  | c :: cs =>
    match mode with
    | .comment => none
    | .escaped q => scan (.quoted q) depth cs
    | .quoted q =>
      scan (if c = '\\' then .escaped q else if c = q then .code else .quoted q) depth cs
    | .code =>
      if isQuote c then scan (.quoted c) depth cs
      else if startsComment c cs.head? then none
      else if c = ';' ∧ depth ≤ 0 then none
      else scan .code (depth + bracket c) cs

/-- Whether the text leaves the scan of a script outside quotes and brackets. -/
def Closed (t : Text) : Prop := scan .code 0 t = some (.code, 0)

instance (t : Text) : Decidable (Closed t) :=
  inferInstanceAs (Decidable (scan .code 0 t = some (.code, 0)))

theorem scan_code_cons {c : Char} {cs : Text} {depth : Int} {stop : Mode × Int}
    (h : scan .code depth (c :: cs) = some stop) :
    (isQuote c = true ∧ scan (.quoted c) depth cs = some stop) ∨
      (isQuote c = false ∧ startsComment c cs.head? = false ∧ ¬(c = ';' ∧ depth ≤ 0) ∧
        scan .code (depth + bracket c) cs = some stop) := by
  rw [scan] at h
  split at h
  · exact .inl ⟨by assumption, h⟩
  · split at h
    · cases h
    · split at h
      · cases h
      · exact .inr ⟨by simp_all, by simp_all, by assumption, h⟩

/-- Whether no comment can start with the last character of one text and this one. -/
def NoCommentTail (rest : Text) : Prop := ∀ c ∈ rest.head?, c ≠ '-' ∧ c ≠ '/'

theorem startsComment_append {rest : Text} (h : NoCommentTail rest) (c : Char) (cs : Text) :
    startsComment c (cs ++ rest).head? = startsComment c cs.head? := by
  cases cs with
  | cons d ds => rfl
  | nil =>
    cases rest with
    | nil => rfl
    | cons d ds =>
      obtain ⟨h₁, h₂⟩ := h d rfl
      have hd₁ : (d == '-') = false := by simpa using h₁
      have hd₂ : (d == '/') = false := by simpa using h₂
      simp [startsComment, hd₁, hd₂]

/-- The scan of a joined text goes on where the first text left it. -/
theorem scan_append {rest : Text} (hr : NoCommentTail rest) {t : Text} {mode mode' : Mode}
    {depth depth' : Int} (h : scan mode depth t = some (mode', depth')) :
    scan mode depth (t ++ rest) = scan mode' depth' rest := by
  -- Only the start of a comment looks ahead, and `hr` keeps it from looking into `rest`.
  induction t generalizing mode depth with
  | nil =>
    cases h
    rfl
  | cons c cs ih =>
    cases mode with
    | comment => cases h
    | escaped q => exact ih h
    | quoted q => exact ih h
    | code =>
      rw [List.cons_append, scan, startsComment_append hr]
      rcases scan_code_cons h with ⟨hq, h⟩ | ⟨hq, hs, hd, h⟩
      · rw [if_pos hq]
        exact ih h
      · rw [if_neg (by simp [hq]), if_neg (by simp [hs]), if_neg hd]
        exact ih h

/-- A text that holds no end of a statement belongs to the first piece of a script. -/
theorem pieces_append {rest : Text} (hr : NoCommentTail rest) {t : Text} {mode mode' : Mode}
    {depth depth' : Int} (h : scan mode depth t = some (mode', depth')) :
    pieces mode depth (t ++ rest) = Text.prepend t (pieces mode' depth' rest) := by
  induction t generalizing mode depth with
  | nil =>
    cases h
    exact (Text.prepend_nil (pieces_ne_nil mode' depth' rest)).symm
  | cons c cs ih =>
    rw [← Text.consHead_prepend]
    cases mode with
    | comment => cases h
    | escaped q => exact congrArg (Text.consHead c) (ih h)
    | quoted q => exact congrArg (Text.consHead c) (ih h)
    | code =>
      rw [List.cons_append, pieces, startsComment_append hr]
      rcases scan_code_cons h with ⟨hq, h⟩ | ⟨hq, hs, hd, h⟩
      · rw [if_pos hq, ih h]
      · rw [if_neg (by simp [hq]), if_neg (by simp [hs]), if_neg hd, ih h]

namespace Closed

theorem append {a b : Text} (ha : Closed a) (hb : Closed b) (h : NoCommentTail b) :
    Closed (a ++ b) := (scan_append h ha).trans hb

theorem cons {c : Char} {t : Text} (hc : Closed [c]) (ht : Closed t) (h : NoCommentTail t) :
    Closed (c :: t) := hc.append ht h

theorem blank {t : Text} (h : Closed t) : Closed (' ' :: t) := by
  have bracket : bracket ' ' = 0 := rfl
  have comment : startsComment ' ' t.head? = false := rfl
  rw [Closed, scan, if_neg (by decide), if_neg (by simp [comment]), if_neg (by decide), bracket]
  exact h

/-- A text of characters that mean nothing to the scan is closed. -/
theorem of_forall {t : Text}
    (h : ∀ c ∈ t, isQuote c = false ∧ c ≠ '#' ∧ c ≠ '-' ∧ c ≠ '/' ∧ c ≠ ';' ∧ bracket c = 0) :
    Closed t := by
  induction t with
  | nil => rfl
  | cons c cs ih =>
    obtain ⟨h₁, h₂, h₃, h₄, h₅, h₆⟩ := h c List.mem_cons_self
    have rest : Closed cs := ih fun d hd => h d (List.mem_cons_of_mem c hd)
    rw [Closed, scan, if_neg (by simp [h₁]), if_neg (by simp [startsComment, h₂, h₃, h₄]),
      if_neg (by simp [h₅]), h₆]
    exact rest

end Closed

/-- The quote that the scan is inside of. -/
def Mode.quote? : Mode → Option Char
  | .quoted q | .escaped q => some q
  | _ => none

/-- A semicolon at the end of a text would end a statement, or stand in quotes or brackets. -/
theorem scan_append_semicolon_ne (t : Text) (mode : Mode) (depth : Int)
    (hm : ∀ q ∈ mode.quote?, isQuote q = true) :
    scan mode depth (t ++ [';']) ≠ some (.code, 0) := by
  induction t generalizing mode depth with
  | nil =>
    cases mode with
    | comment => simp [scan]
    | escaped q => simp [scan]
    | quoted q =>
      have hq : (';' : Char) ≠ q := by
        rintro rfl
        have := hm ';' rfl
        revert this
        decide
      simp [scan, hq]
    | code =>
      by_cases hd : depth ≤ 0
      · simp [scan, hd, isQuote, startsComment]
      · have : depth ≠ 0 := by omega
        simp [scan, hd, isQuote, startsComment, bracket, this]
  | cons c cs ih =>
    cases mode with
    | comment => simp [scan]
    | escaped q => exact ih (.quoted q) depth fun q' hq => hm q' hq
    | quoted q =>
      apply ih _ depth
      intro q' hq
      split at hq
      · exact hm q' hq
      · split at hq
        · cases hq
        · exact hm q' hq
    | code =>
      intro h
      rcases scan_code_cons h with ⟨hq, h⟩ | ⟨-, -, -, h⟩
      · exact ih (.quoted c) depth (fun q hq' => by cases hq'; exact hq) h
      · exact ih .code _ (fun q hq => by cases hq) h

theorem Closed.getLast?_ne {t : Text} (h : Closed t) : t.getLast? ≠ some ';' := by
  intro hl
  obtain ⟨s, rfl⟩ := List.getLast?_eq_some_iff.mp hl
  exact scan_append_semicolon_ne s .code 0 (fun q hq => by cases hq) h

/-! ## Scripts of closed statements -/

/-- Whether the text is trimmed and closed, as a statement is without its semicolon. -/
structure Settled (t : Text) : Prop where
  trimmed : Text.IsTrimmed t
  closed : Closed t

instance (t : Text) : Decidable (Settled t) :=
  decidable_of_iff (Text.IsTrimmed t ∧ Closed t) ⟨fun h => ⟨h.1, h.2⟩, fun h => ⟨h.1, h.2⟩⟩

theorem Settled.isBody {t : Text} (h : Settled t) : Clause.IsBody t :=
  ⟨h.trimmed, h.closed.getLast?_ne⟩

/-- A closed text and the semicolon behind it are split off the script. -/
theorem statements_append_semicolon {t : Text} (h : Closed t) (rest : Text) :
    statements (t ++ ';' :: rest) = [Text.trim t].filter (!·.isEmpty) ++ statements rest := by
  have ends : pieces .code 0 (';' :: rest) = [] :: pieces .code 0 rest := by
    simp [pieces, isQuote, startsComment]
  have tail : NoCommentTail (';' :: rest) := by
    rintro _ ⟨⟩
    decide
  rw [statements, pieces_append tail h, ends, Text.prepend_cons, List.append_nil, List.map_cons,
    ← List.singleton_append, List.filter_append, statements]

theorem statements_cons {t : Text} (h : Settled t) (rest : Text) :
    statements (t ++ ';' :: rest) = t :: statements rest := by
  rw [statements_append_semicolon h.closed, h.trimmed.trim_eq]
  simp [h.trimmed.ne_nil]

theorem statements_of_closed {t : Text} (h : Closed t) :
    statements t = [Text.trim t].filter (!·.isEmpty) := by
  have tail : NoCommentTail [] := fun c hc => by cases hc
  have whole := pieces_append tail h
  rw [List.append_nil] at whole
  rw [statements, whole]
  simp [pieces]

theorem statements_newline (rest : Text) : statements ('\n' :: rest) = statements rest := by
  have split : pieces .code 0 ('\n' :: rest) = Text.consHead '\n' (pieces .code 0 rest) := by
    simp [pieces, isQuote, startsComment, bracket]
  have trimmed : ∀ p : Text, Text.trim ('\n' :: p) = Text.trim p := fun p => by
    rw [Text.trim, Text.trim, Text.trimStart_cons_of_blank p Text.isBlank_newline]
  rw [statements, statements, split]
  cases h : pieces .code 0 rest with
  | nil => exact absurd h (pieces_ne_nil .code 0 rest)
  | cons p ps => simp only [Text.consHead, List.map_cons, trimmed]

/-- The statements between semicolons and line ends are trimmed, and blank ones are left out. -/
theorem statements_join_of_closed {ts : List Text} (h : ∀ t ∈ ts, Closed t) :
    statements (Text.join ";\n" ts) = (ts.map Text.trim).filter (!·.isEmpty) := by
  induction ts with
  | nil => rfl
  | cons t ts ih =>
    have rest := ih fun s hs => h s (List.mem_cons_of_mem t hs)
    have here := h t List.mem_cons_self
    cases ts with
    | nil =>
      rw [Text.join_singleton]
      exact statements_of_closed here
    | cons t' ts =>
      have regroup (r : Text) : t ++ (";\n" ++ r) = t ++ ';' :: '\n' :: r := rfl
      rw [Text.join_cons_cons, regroup, statements_append_semicolon here, statements_newline, rest,
        ← List.filter_append]
      rfl

theorem statements_join {ts : List Text} (h : ∀ t ∈ ts, Settled t) :
    statements (Text.join "\n" (ts.map (· ++ [';']))) = ts := by
  induction ts with
  | nil => rfl
  | cons t ts ih =>
    have rest := ih fun s hs => h s (List.mem_cons_of_mem t hs)
    have here := h t List.mem_cons_self
    cases ts with
    | nil =>
      rw [List.map_singleton, Text.join_singleton, statements_cons here]
      rfl
    | cons t' ts =>
      rw [List.map_cons, List.map_cons, Text.join_cons_cons, List.append_assoc,
        List.singleton_append, statements_cons here]
      exact congrArg (t :: ·) ((statements_newline _).trans rest)

end SchemaDrift.Script
