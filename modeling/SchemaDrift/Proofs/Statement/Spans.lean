import SchemaDrift.Proofs.Statement.Closed

namespace SchemaDrift.Script

/-!
# Spans of statements

A script is cut into spans, each of which holds one statement with its comments and its semicolon. A
span whose brackets balance can be left out of a script without a change to the other statements.
-/

/-- The spans of a script, in which the texts between the ends of statements lie. -/
def spans (mode : Mode) (depth : Int) : Text → List Text
  | [] => [[]]
  | c :: cs =>
    match mode with
    | .comment => Text.consHead c (spans (if c = '\n' then .code else .comment) depth cs)
    | .escaped q => Text.consHead c (spans (.quoted q) depth cs)
    | .quoted q =>
      let mode := if c = '\\' then .escaped q else if c = q then .code else .quoted q
      Text.consHead c (spans mode depth cs)
    | .code =>
      if isQuote c then Text.consHead c (spans (.quoted c) depth cs)
      else if startsComment c cs.head? then Text.consHead c (spans .comment depth cs)
      else if c = ';' ∧ depth ≤ 0 then [c] :: spans .code depth cs
      else Text.consHead c (spans .code (depth + bracket c) cs)

/-- How a text changes the bracket depth. -/
def balance (mode : Mode) : Text → Int
  | [] => 0
  | c :: cs =>
    match mode with
    | .comment => balance (if c = '\n' then .code else .comment) cs
    | .escaped q => balance (.quoted q) cs
    | .quoted q => balance (if c = '\\' then .escaped q else if c = q then .code else .quoted q) cs
    | .code =>
      if isQuote c then balance (.quoted c) cs
      else if startsComment c cs.head? then balance .comment cs
      else bracket c + balance .code cs

/-- Whether the text is the first span of what it starts, whatever comes behind it, and leaves this
piece and this depth. -/
structure IsSpan (mode : Mode) (depth : Int) (span piece : Text) (stop : Int) : Prop where
  ne_nil : span ≠ []
  depth_eq : stop = depth + balance mode span
  spans_append : ∀ rest, spans mode depth (span ++ rest) = span :: spans .code stop rest
  pieces_append : ∀ rest, pieces mode depth (span ++ rest) = piece :: pieces .code stop rest

theorem IsSpan.startsComment {mode : Mode} {depth stop : Int} {span piece : Text}
    (h : IsSpan mode depth span piece stop) (c : Char) (rest : Text) :
    startsComment c (span ++ rest).head? = startsComment c span.head? := by
  cases span with
  | nil => exact absurd rfl h.ne_nil
  | cons d ds => rfl

theorem isSpan_semicolon {depth : Int} (h : depth ≤ 0) : IsSpan .code depth [';'] [] depth where
  ne_nil := List.cons_ne_nil _ _
  depth_eq := by simp [balance, isQuote, startsComment, bracket]
  spans_append rest := by simp [spans, isQuote, startsComment, h]
  pieces_append rest := by simp [pieces, isQuote, startsComment, h]

section Step

variable {depth stop : Int} {c : Char} {span piece : Text}

theorem IsSpan.comment
    (h : IsSpan (if c = '\n' then .code else .comment) depth span piece stop) :
    IsSpan .comment depth (c :: span) piece stop where
  ne_nil := List.cons_ne_nil _ _
  depth_eq := h.depth_eq
  spans_append rest := by rw [List.cons_append, spans, h.spans_append]; rfl
  pieces_append rest := by rw [List.cons_append, pieces, h.pieces_append]

theorem IsSpan.escaped {q : Char} (h : IsSpan (.quoted q) depth span piece stop) :
    IsSpan (.escaped q) depth (c :: span) (c :: piece) stop where
  ne_nil := List.cons_ne_nil _ _
  depth_eq := h.depth_eq
  spans_append rest := by rw [List.cons_append, spans, h.spans_append]; rfl
  pieces_append rest := by rw [List.cons_append, pieces, h.pieces_append]; rfl

theorem IsSpan.quoted {q : Char}
    (h : IsSpan (if c = '\\' then .escaped q else if c = q then .code else .quoted q) depth span
      piece stop) :
    IsSpan (.quoted q) depth (c :: span) (c :: piece) stop where
  ne_nil := List.cons_ne_nil _ _
  depth_eq := h.depth_eq
  spans_append rest := by simp only [List.cons_append, spans, h.spans_append]; rfl
  pieces_append rest := by simp only [List.cons_append, pieces, h.pieces_append]; rfl

theorem IsSpan.quote (hc : isQuote c = true) (h : IsSpan (.quoted c) depth span piece stop) :
    IsSpan .code depth (c :: span) (c :: piece) stop where
  ne_nil := List.cons_ne_nil _ _
  depth_eq := by rw [balance, if_pos hc, h.depth_eq]
  spans_append rest := by rw [List.cons_append, spans, if_pos hc, h.spans_append]; rfl
  pieces_append rest := by rw [List.cons_append, pieces, if_pos hc, h.pieces_append]; rfl

theorem IsSpan.opensComment (hq : isQuote c = false) (hc : Script.startsComment c span.head? = true)
    (h : IsSpan .comment depth span piece stop) : IsSpan .code depth (c :: span) piece stop where
  ne_nil := List.cons_ne_nil _ _
  depth_eq := by rw [balance, if_neg (by simp [hq]), if_pos hc, h.depth_eq]
  spans_append rest := by
    rw [List.cons_append, spans, if_neg (by simp [hq]), if_pos (by rw [h.startsComment, hc]),
      h.spans_append]
    rfl
  pieces_append rest := by
    rw [List.cons_append, pieces, if_neg (by simp [hq]), if_pos (by rw [h.startsComment, hc]),
      h.pieces_append]

theorem IsSpan.code (hq : isQuote c = false) (hc : Script.startsComment c span.head? = false)
    (hd : ¬(c = ';' ∧ depth ≤ 0)) (h : IsSpan .code (depth + bracket c) span piece stop) :
    IsSpan .code depth (c :: span) (c :: piece) stop where
  ne_nil := List.cons_ne_nil _ _
  depth_eq := by
    rw [balance, if_neg (by simp [hq]), if_neg (by simp [hc]), h.depth_eq]
    omega
  spans_append rest := by
    have plain : ¬Script.startsComment c (span ++ rest).head? = true := by
      simp only [h.startsComment, hc, Bool.false_eq_true, not_false_eq_true]
    rw [List.cons_append, spans, if_neg (by simp [hq]), if_neg plain, if_neg hd, h.spans_append]
    rfl
  pieces_append rest := by
    have plain : ¬Script.startsComment c (span ++ rest).head? = true := by
      simp only [h.startsComment, hc, Bool.false_eq_true, not_false_eq_true]
    rw [List.cons_append, pieces, if_neg (by simp [hq]), if_neg plain, if_neg hd, h.pieces_append]
    rfl

end Step

/-- Whether the scan of a text meets no end of a statement. -/
structure IsLast (mode : Mode) (depth : Int) (t : Text) : Prop where
  spans_eq : spans mode depth t = [t]
  pieces_eq : ∃ piece, pieces mode depth t = [piece]

theorem isLast_or_isSpan (mode : Mode) (depth : Int) (t : Text) :
    IsLast mode depth t ∨
      ∃ span rest piece stop, t = span ++ rest ∧ IsSpan mode depth span piece stop := by
  induction t generalizing mode depth with
  | nil => exact .inl ⟨rfl, [], rfl⟩
  | cons c cs ih =>
    cases mode with
    | comment =>
      rcases ih (if c = '\n' then .code else .comment) depth with
        ⟨hs, p, hp⟩ | ⟨span, rest, p, stop, rfl, h⟩
      · exact .inl ⟨by rw [spans, hs]; rfl, p, by rw [pieces, hp]⟩
      · exact .inr ⟨c :: span, rest, p, stop, rfl, h.comment⟩
    | escaped q =>
      rcases ih (.quoted q) depth with ⟨hs, p, hp⟩ | ⟨span, rest, p, stop, rfl, h⟩
      · exact .inl ⟨by rw [spans, hs]; rfl, c :: p, by rw [pieces, hp]; rfl⟩
      · exact .inr ⟨c :: span, rest, c :: p, stop, rfl, h.escaped⟩
    | quoted q =>
      rcases ih (if c = '\\' then .escaped q else if c = q then .code else .quoted q) depth with
        ⟨hs, p, hp⟩ | ⟨span, rest, p, stop, rfl, h⟩
      · exact .inl ⟨by simp only [spans, hs]; rfl, c :: p, by simp only [pieces, hp]; rfl⟩
      · exact .inr ⟨c :: span, rest, c :: p, stop, rfl, h.quoted⟩
    | code =>
      cases hq : isQuote c with
      | true =>
        rcases ih (.quoted c) depth with ⟨hs, p, hp⟩ | ⟨span, rest, p, stop, rfl, h⟩
        · exact .inl ⟨by rw [spans, if_pos hq, hs]; rfl, c :: p, by rw [pieces, if_pos hq, hp]; rfl⟩
        · exact .inr ⟨c :: span, rest, c :: p, stop, rfl, h.quote hq⟩
      | false =>
        have code : ¬isQuote c = true := by simp [hq]
        cases hc : startsComment c cs.head? with
        | true =>
          rcases ih .comment depth with ⟨hs, p, hp⟩ | ⟨span, rest, p, stop, rfl, h⟩
          · exact .inl ⟨by rw [spans, if_neg code, if_pos hc, hs]; rfl, p,
              by rw [pieces, if_neg code, if_pos hc, hp]⟩
          · rw [h.startsComment] at hc
            exact .inr ⟨c :: span, rest, p, stop, rfl, h.opensComment hq hc⟩
        | false =>
          have plain : ¬startsComment c cs.head? = true := by simp [hc]
          by_cases hd : c = ';' ∧ depth ≤ 0
          · obtain ⟨rfl, hd⟩ := hd
            exact .inr ⟨[';'], cs, [], depth, rfl, isSpan_semicolon hd⟩
          · rcases ih .code (depth + bracket c) with ⟨hs, p, hp⟩ | ⟨span, rest, p, stop, rfl, h⟩
            · exact .inl ⟨by rw [spans, if_neg code, if_neg plain, if_neg hd, hs]; rfl, c :: p,
                by rw [pieces, if_neg code, if_neg plain, if_neg hd, hp]; rfl⟩
            · rw [h.startsComment] at hc
              exact .inr ⟨c :: span, rest, c :: p, stop, rfl, h.code hq hc hd⟩

/-! ## Leaving out spans -/

/-- The pieces of a script, each with its span. -/
def parts (depth : Int) (t : Text) : List (Text × Text) :=
  (pieces .code depth t).zip (spans .code depth t)

/-- The text of the spans whose pieces are kept. -/
def keeping (keep : Text → Bool) (depth : Int) (t : Text) : Text :=
  ((parts depth t).filter fun part => keep part.1).flatMap (·.2)

/-- The statements in some pieces. -/
def statementsIn (ps : List Text) : List Text := (ps.map Text.trim).filter (!·.isEmpty)

theorem statementsIn_cons (p : Text) (ps : List Text) :
    statementsIn (p :: ps) = statementsIn [p] ++ statementsIn ps := by
  rw [statementsIn, statementsIn, statementsIn, ← List.filter_append, ← List.map_append]
  rfl

theorem parts_append {depth stop : Int} {span piece : Text}
    (h : IsSpan .code depth span piece stop) (rest : Text) :
    parts depth (span ++ rest) = (piece, span) :: parts stop rest := by
  rw [parts, h.pieces_append, h.spans_append]
  rfl

theorem parts_ne_nil (depth : Int) (t : Text) : parts depth t ≠ [] := by
  rcases isLast_or_isSpan .code depth t with ⟨hs, p, hp⟩ | ⟨span, rest, p, stop, rfl, h⟩
  · rw [parts, hs, hp]
    exact List.cons_ne_nil _ _
  · rw [parts_append h]
    exact List.cons_ne_nil _ _

/-- Without the spans that are left out, the other statements are the statements of a script, if the
brackets in each span that is left out balance. The last span can be left out in any case. -/
theorem statementsIn_keeping (keep : Text → Bool) {depth : Int} {t : Text}
    (h : ∀ part ∈ (parts depth t).dropLast, keep part.1 = false → balance .code part.2 = 0) :
    statementsIn (pieces .code depth (keeping keep depth t)) =
      statementsIn ((pieces .code depth t).filter keep) := by
  induction hn : t.length using Nat.strong_induction_on generalizing depth t with
  | _ n ih =>
    rcases isLast_or_isSpan .code depth t with ⟨hs, p, hp⟩ | ⟨span, rest, p, stop, rfl, hspan⟩
    · have single : parts depth t = [(p, t)] := by
        rw [parts, hs, hp]
        rfl
      rw [keeping, single, hp]
      cases hk : keep p with
      | false => simp [hk, pieces, statementsIn]
      | true => simp [hk, hp]
    · have shorter : rest.length < n := by
        have := List.length_pos_iff.mpr hspan.ne_nil
        simp only [List.length_append] at hn
        omega
      have tail : ∀ part ∈ (parts stop rest).dropLast, keep part.1 = false →
          balance .code part.2 = 0 := by
        intro part hpart
        apply h part
        rw [parts_append hspan, List.dropLast_cons_of_ne_nil (parts_ne_nil stop rest)]
        exact List.mem_cons_of_mem _ hpart
      have rest' := ih rest.length shorter tail rfl
      rw [keeping] at rest' ⊢
      rw [parts_append hspan, hspan.pieces_append]
      cases hk : keep p with
      | false =>
        have here : balance .code span = 0 := by
          refine h (p, span) ?_ hk
          rw [parts_append hspan, List.dropLast_cons_of_ne_nil (parts_ne_nil stop rest)]
          exact List.mem_cons_self
        have level : stop = depth := by rw [hspan.depth_eq, here, Int.add_zero]
        subst level
        simpa [hk] using rest'
      | true =>
        rw [List.filter_cons_of_pos (by simpa using hk), List.filter_cons_of_pos hk,
          List.flatMap_cons, hspan.pieces_append, statementsIn_cons, rest', ← statementsIn_cons]

end SchemaDrift.Script
