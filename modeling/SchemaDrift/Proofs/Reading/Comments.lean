import SchemaDrift.Proofs.Reading.Squeezed

namespace SchemaDrift

/-!
# Comments of a script

A comment is dropped together with the line end behind it, so what stands in front of it and what
stands on the next line are put side by side. A script is compared with the one that has a line end
in the place of each comment: up to runs of blanks the statements are the same just if each comment
inside a statement has a blank beside it, and then the schemas are the same too.
-/

open Text (squeeze trimStart trimEnd trim solid isBlank)

namespace Script

/-- What the scan of a script makes of its characters. -/
inductive Token where
  /-- A character of a statement. -/
  | kept (c : Char)
  /-- A comment with its line end. -/
  | comment
  /-- A semicolon that ends a statement. -/
  | stop

namespace Token

/-- The character of the token, a line end for a comment. -/
def char : Token → Char
  | kept c => c
  | comment => '\n'
  | stop => ';'

/-- The token with a line end in the place of a comment. -/
def newline : Token → Token
  | kept c => kept c
  | comment => kept '\n'
  | stop => stop

end Token

/-- The tokens of a script. -/
def tokens (mode : Mode) (depth : Int) : Text → List Token
  | [] => []
  | c :: cs =>
    match mode with
    | .comment => tokens (if c = '\n' then .code else .comment) depth cs
    | .escaped q => .kept c :: tokens (.quoted q) depth cs
    | .quoted q =>
      .kept c ::
        tokens (if c = '\\' then .escaped q else if c = q then .code else .quoted q) depth cs
    | .code =>
      if isQuote c then .kept c :: tokens (.quoted c) depth cs
      else if startsComment c cs.head? then .comment :: tokens .comment depth cs
      else if c = ';' ∧ depth ≤ 0 then .stop :: tokens .code depth cs
      else .kept c :: tokens .code (depth + bracket c) cs

/-- The script with a line end in the place of each comment. -/
def newlined (script : Text) : Text := (tokens .code 0 script).map Token.char

/-- The texts between the ends of statements, without the comments. -/
def cut : List Token → List Text
  | [] => [[]]
  | .kept c :: ts => Text.consHead c (cut ts)
  | .comment :: ts => cut ts
  | .stop :: ts => [] :: cut ts

theorem pieces_eq_cut (mode : Mode) (depth : Int) (t : Text) :
    pieces mode depth t = cut (tokens mode depth t) := by
  induction t generalizing mode depth with
  | nil => rfl
  | cons c cs ih =>
    cases mode with
    | comment => rw [pieces, tokens, ih]
    | escaped q => rw [pieces, tokens, cut, ih]
    | quoted q => simp only [pieces, tokens, cut, ih]
    | code =>
      rw [pieces, tokens, ih, ih, ih, ih]
      split
      · rfl
      · split
        · rfl
        · split <;> rfl

/-! ## The tokens of the script with line ends -/

/-- What the scan is inside of when the line end of a comment has been passed. -/
def Mode.resumed : Mode → Mode
  | .comment => .code
  | mode => mode

theorem head?_char_tokens (depth : Int) (t : Text) :
    ((tokens .code depth t).map Token.char).head? = t.head? ∨
      ((tokens .code depth t).map Token.char).head? = some '\n' := by
  cases t with
  | nil => exact .inl rfl
  | cons c cs =>
    rw [tokens]
    split
    · exact .inl rfl
    · split
      · exact .inr rfl
      · split
        · rename_i h
          exact .inl (congrArg some h.1.symm)
        · exact .inl rfl

/-- A line end in the place of a comment does not make another comment of what stands before it. -/
theorem startsComment_char_tokens {c : Char} {t : Text} (h : startsComment c t.head? = false)
    (depth : Int) : startsComment c ((tokens .code depth t).map Token.char).head? = false := by
  rcases head?_char_tokens depth t with h' | h'
  · rw [h', h]
  · rw [h']
    simp only [startsComment, Bool.or_eq_false_iff] at h ⊢
    simp [h.1.1]

theorem tokens_newline (depth : Int) (t : Text) :
    tokens .code depth ('\n' :: t) = .kept '\n' :: tokens .code depth t := by
  have level : depth + bracket '\n' = depth := Int.add_zero depth
  rw [tokens, if_neg (by decide), if_neg (by simp [startsComment]), if_neg (by simp), level]

theorem tokens_semicolon {depth : Int} (h : depth ≤ 0) (t : Text) :
    tokens .code depth (';' :: t) = .stop :: tokens .code depth t := by
  rw [tokens, if_neg (by decide), if_neg (by simp [startsComment]), if_pos ⟨rfl, h⟩]

theorem tokens_char_tokens (mode : Mode) (depth : Int) (t : Text) :
    tokens mode.resumed depth ((tokens mode depth t).map Token.char) =
      (tokens mode depth t).map Token.newline := by
  induction t generalizing mode depth with
  | nil => rfl
  | cons c cs ih =>
    cases mode with
    | comment =>
      have resumed : (if c = '\n' then Mode.code else Mode.comment).resumed = .code := by
        split <;> rfl
      have rest := ih (if c = '\n' then .code else .comment) depth
      rw [resumed] at rest
      rw [tokens]
      exact rest
    | escaped q => exact congrArg (.kept c :: ·) (ih (.quoted q) depth)
    | quoted q =>
      have resumed :
          (if c = '\\' then Mode.escaped q else if c = q then .code else .quoted q).resumed =
          if c = '\\' then .escaped q else if c = q then .code else .quoted q := by
        split
        · rfl
        · split <;> rfl
      have rest := ih (if c = '\\' then .escaped q else if c = q then .code else .quoted q) depth
      rw [resumed] at rest
      exact congrArg (.kept c :: ·) rest
    | code =>
      change tokens .code depth _ = _
      cases hq : isQuote c with
      | true =>
        rw [tokens, if_pos hq, List.map_cons, Token.char, tokens, if_pos hq]
        exact congrArg (.kept c :: ·) (ih (.quoted c) depth)
      | false =>
        have code : ¬isQuote c = true := by simp [hq]
        cases hc : startsComment c cs.head? with
        | true =>
          rw [tokens, if_neg code, if_pos hc, List.map_cons, Token.char, tokens_newline]
          exact congrArg (.kept '\n' :: ·) (ih .comment depth)
        | false =>
          have plain : ¬startsComment c cs.head? = true := by simp [hc]
          by_cases hd : c = ';' ∧ depth ≤ 0
          · obtain ⟨rfl, hd⟩ := hd
            rw [tokens, if_neg code, if_neg plain, if_pos ⟨rfl, hd⟩, List.map_cons, Token.char,
              tokens_semicolon hd]
            exact congrArg (.stop :: ·) (ih .code depth)
          · have plain' := Bool.eq_false_iff.mp (startsComment_char_tokens hc (depth + bracket c))
            rw [tokens, if_neg code, if_neg plain, if_neg hd, List.map_cons, Token.char, tokens,
              if_neg code, if_neg plain', if_neg hd]
            exact congrArg (.kept c :: ·) (ih .code (depth + bracket c))

theorem pieces_newlined (script : Text) :
    pieces .code 0 (newlined script) = cut ((tokens .code 0 script).map Token.newline) := by
  rw [pieces_eq_cut, newlined]
  exact congrArg cut (tokens_char_tokens .code 0 script)

/-! ## Comments with a blank beside them -/

/-- What the scan of a statement has in front of it. -/
inductive Spot where
  /-- The start of the statement, or a blank. -/
  | blank
  /-- A character that is not blank. -/
  | solid
  /-- Comments behind a character that is not blank. -/
  | joined
  deriving DecidableEq

/-- Whether no comments stand alone between two characters that are not blank. -/
def detached (spot : Spot) : List Token → Bool
  | [] => true
  | .stop :: ts => detached .blank ts
  | .comment :: ts => detached (if spot = .solid then .joined else spot) ts
  | .kept c :: ts => if isBlank c then detached .blank ts else spot != .joined && detached .solid ts

/-- Whether each comment inside a statement has a blank beside it. Comments without a blank between
them count as one. -/
def Detached (script : Text) : Prop := detached .blank (tokens .code 0 script) = true

instance (script : Text) : Decidable (Detached script) :=
  inferInstanceAs (Decidable (detached .blank (tokens .code 0 script) = true))

/-- The text of a statement without blanks at its ends and with one space for each run of others. -/
def gist (p : Text) : Text := squeeze (trim p)

/-- Whether two texts behind the spot agree up to runs of blanks, where the second one has line ends
in the place of comments. -/
def Spot.Agree : Spot → Text → Text → Prop
  | .blank, p, q => gist p = gist q
  | .solid, p, q => squeeze (trimEnd p) = squeeze (trimEnd q)
  | .joined, p, q => squeeze (trimEnd p) = squeeze (trimEnd ('\n' :: q))

section Agree

variable {c : Char} {p q : Text}

theorem gist_cons_of_blank (hc : isBlank c = true) (p : Text) : gist (c :: p) = gist p := by
  rw [gist, trim, Text.trimStart_cons_of_blank p hc, ← trim, gist]

theorem gist_cons_of_not_blank (hc : isBlank c = false) (p : Text) :
    gist (c :: p) = c :: squeeze (trimEnd p) := by
  rw [gist, trim, Text.trimStart_cons_of_not_blank p hc, Text.trimEnd_cons_of_not_blank hc,
    Text.squeeze_cons_of_not_blank hc]

/-- Blanks are one space if something follows them that is not blank. -/
theorem squeeze_trimEnd_cons_of_blank (hc : isBlank c = true) (p : Text) :
    squeeze (trimEnd (c :: p)) = if gist p = [] then [] else ' ' :: gist p := by
  have rest : trimEnd (trimStart (squeeze p)) = gist p := Text.trim_squeeze p
  rw [← Text.trimEnd_squeeze, Text.squeeze_cons_of_blank hc, Text.trimEnd_cons, rest]
  simp

theorem agree_comment (spot : Spot) :
    spot.Agree p ('\n' :: q) ↔ (if spot = .solid then .joined else spot : Spot).Agree p q := by
  have newline (q : Text) := squeeze_trimEnd_cons_of_blank Text.isBlank_newline q
  cases spot with
  | blank =>
    change gist p = gist ('\n' :: q) ↔ gist p = gist q
    rw [gist_cons_of_blank Text.isBlank_newline]
  | solid => exact Iff.rfl
  | joined =>
    change squeeze (trimEnd p) = squeeze (trimEnd ('\n' :: '\n' :: q)) ↔
      squeeze (trimEnd p) = squeeze (trimEnd ('\n' :: q))
    rw [newline, newline, gist_cons_of_blank Text.isBlank_newline]

theorem agree_blank (hc : isBlank c = true) (spot : Spot) :
    spot.Agree (c :: p) (c :: q) ↔ Spot.blank.Agree p q := by
  have space (a b : Text) : ((if a = [] then [] else ' ' :: a) = if b = [] then [] else ' ' :: b) ↔
      a = b := by
    by_cases ha : a = [] <;> by_cases hb : b = [] <;> simp [ha, hb, eq_comm]
  cases spot with
  | blank =>
    change gist (c :: p) = gist (c :: q) ↔ gist p = gist q
    rw [gist_cons_of_blank hc, gist_cons_of_blank hc]
  | solid =>
    change squeeze (trimEnd (c :: p)) = squeeze (trimEnd (c :: q)) ↔ gist p = gist q
    rw [squeeze_trimEnd_cons_of_blank hc, squeeze_trimEnd_cons_of_blank hc, space]
  | joined =>
    change squeeze (trimEnd (c :: p)) = squeeze (trimEnd ('\n' :: c :: q)) ↔ gist p = gist q
    rw [squeeze_trimEnd_cons_of_blank hc, squeeze_trimEnd_cons_of_blank Text.isBlank_newline,
      gist_cons_of_blank hc, space]

theorem agree_solid (hc : isBlank c = false) (spot : Spot) :
    spot.Agree (c :: p) (c :: q) ↔ spot ≠ .joined ∧ Spot.solid.Agree p q := by
  have head (p : Text) : squeeze (trimEnd (c :: p)) = c :: squeeze (trimEnd p) := by
    rw [Text.trimEnd_cons_of_not_blank hc, Text.squeeze_cons_of_not_blank hc]
  cases spot with
  | blank =>
    change gist (c :: p) = gist (c :: q) ↔ _ ∧ squeeze (trimEnd p) = squeeze (trimEnd q)
    simp [gist_cons_of_not_blank hc]
  | solid =>
    change squeeze (trimEnd (c :: p)) = squeeze (trimEnd (c :: q)) ↔
      _ ∧ squeeze (trimEnd p) = squeeze (trimEnd q)
    simp [head]
  | joined =>
    -- The second text starts with a space, the first one does not.
    have space : c ≠ ' ' := by
      rintro rfl
      cases hc
    change squeeze (trimEnd (c :: p)) = squeeze (trimEnd ('\n' :: c :: q)) ↔ _
    rw [head, squeeze_trimEnd_cons_of_blank Text.isBlank_newline, gist_cons_of_not_blank hc]
    simp [space]

end Agree

theorem exists_cut_eq_cons (ts : List Token) : ∃ p ps, cut ts = p :: ps := by
  induction ts with
  | nil => exact ⟨[], [], rfl⟩
  | cons t ts ih =>
    obtain ⟨p, ps, h⟩ := ih
    cases t with
    | kept c => exact ⟨c :: p, ps, by rw [cut, h]; rfl⟩
    | comment => exact ⟨p, ps, h⟩
    | stop => exact ⟨[], p :: ps, by rw [cut, h]⟩

/-- The pieces agree up to runs of blanks just if each comment in them has a blank beside it. -/
theorem agree_cut_iff (spot : Spot) {ts : List Token} {p q : Text} {ps qs : List Text}
    (hp : cut ts = p :: ps) (hq : cut (ts.map Token.newline) = q :: qs) :
    (spot.Agree p q ∧ ps.map gist = qs.map gist) ↔ detached spot ts = true := by
  induction ts generalizing spot p q ps qs with
  | nil =>
    cases hp
    cases hq
    have agree : spot.Agree [] [] := by cases spot <;> rfl
    simp [agree, detached]
  | cons t ts ih =>
    obtain ⟨p', ps', hp'⟩ := exists_cut_eq_cons ts
    obtain ⟨q', qs', hq'⟩ := exists_cut_eq_cons (ts.map Token.newline)
    cases t with
    | comment =>
      have hnewline : cut (.kept '\n' :: ts.map Token.newline) = ('\n' :: q') :: qs' := by
        rw [cut, hq']
        rfl
      obtain ⟨rfl, rfl⟩ := List.cons.inj (hnewline.symm.trans hq)
      rw [detached, agree_comment, ih _ hp hq']
    | stop =>
      rw [cut, hp'] at hp
      rw [List.map_cons, Token.newline, cut, hq'] at hq
      cases hp
      cases hq
      have agree : spot.Agree [] [] := by cases spot <;> rfl
      rw [detached, ← ih .blank hp' hq', List.map_cons, List.map_cons, List.cons.injEq]
      exact and_iff_right agree
    | kept c =>
      rw [cut, hp'] at hp
      rw [List.map_cons, Token.newline, cut, hq'] at hq
      cases hp
      cases hq
      rw [detached]
      cases hc : isBlank c with
      | true => rw [agree_blank hc, ih .blank hp' hq', if_pos rfl]
      | false =>
        rw [agree_solid hc, and_assoc, ih .solid hp' hq']
        simp

theorem map_gist_cut_iff (ts : List Token) :
    (cut (ts.map Token.newline)).map gist = (cut ts).map gist ↔ detached .blank ts = true := by
  obtain ⟨p, ps, hp⟩ := exists_cut_eq_cons ts
  obtain ⟨q, qs, hq⟩ := exists_cut_eq_cons (ts.map Token.newline)
  rw [← agree_cut_iff .blank hp hq, hp, hq, List.map_cons, List.map_cons, List.cons.injEq]
  exact and_congr eq_comm eq_comm

/-- The characters of the pieces that are not blank are the same in any case. -/
theorem map_solid_cut (ts : List Token) :
    (cut (ts.map Token.newline)).map solid = (cut ts).map solid := by
  have consHead (c : Char) {ps qs : List Text} (h : ps.map solid = qs.map solid) :
      (Text.consHead c ps).map solid = (Text.consHead c qs).map solid := by
    cases ps with
    | nil => rw [List.map_eq_nil_iff.mp h.symm]
    | cons p ps =>
      obtain ⟨q, qs, rfl, hp, hps⟩ := List.map_eq_cons_iff.mp h.symm
      simp only [solid] at hp
      simp [Text.consHead, solid, List.filter_cons, hp, hps]
  induction ts with
  | nil => rfl
  | cons t ts ih =>
    cases t with
    | kept c => exact consHead c ih
    | comment =>
      obtain ⟨q, qs, hq⟩ := exists_cut_eq_cons (ts.map Token.newline)
      rw [List.map_cons, Token.newline, cut, cut, ← ih, hq]
      simp [Text.consHead, solid]
    | stop => exact congrArg ([] :: ·) ih

/-! ## Statements -/

theorem map_statements {f g : Text → Text} (hg : ∀ p, f (trim p) = g p)
    (hempty : ∀ p, (g p).isEmpty = (trim p).isEmpty) (script : Text) :
    (statements script).map f = ((pieces .code 0 script).map g).filter (!·.isEmpty) := by
  rw [statements]
  generalize pieces .code 0 script = ps
  induction ps with
  | nil => rfl
  | cons p ps ih =>
    rw [List.map_cons, List.filter_cons, List.map_cons, List.filter_cons, hempty]
    split
    · rw [List.map_cons, hg, ih]
    · exact ih

theorem isEmpty_gist (p : Text) : (gist p).isEmpty = (trim p).isEmpty := Text.isEmpty_squeeze _

theorem isEmpty_solid (p : Text) : (solid p).isEmpty = (trim p).isEmpty := by
  rw [Bool.eq_iff_iff, List.isEmpty_iff, List.isEmpty_iff, Text.solid_eq_nil_iff,
    Text.trim_eq_nil_iff]

theorem map_squeeze_statements (script : Text) : (statements script).map squeeze =
    ((pieces .code 0 script).map gist).filter (!·.isEmpty) :=
  map_statements (fun _ => rfl) isEmpty_gist script

theorem map_solid_statements (script : Text) : (statements script).map solid =
    ((pieces .code 0 script).map solid).filter (!·.isEmpty) :=
  map_statements Text.solid_trim isEmpty_solid script

theorem map_solid_pieces (script : Text) :
    (pieces .code 0 (newlined script)).map solid = (pieces .code 0 script).map solid := by
  rw [pieces_newlined, map_solid_cut, pieces_eq_cut]

/-- Lists are equal if they have what is kept of them at the same places and all that is left out is
the same. -/
theorem eq_of_filter_eq {α : Type} {keep : α → Bool} {l l' : List α}
    (hout : ∀ a b, keep a = false → keep b = false → a = b) (hplaces : l.map keep = l'.map keep)
    (h : l.filter keep = l'.filter keep) : l = l' := by
  induction l generalizing l' with
  | nil => exact (List.map_eq_nil_iff.mp hplaces.symm).symm
  | cons a l ih =>
    obtain ⟨b, l', rfl, hb, htail⟩ := List.map_eq_cons_iff.mp hplaces.symm
    cases ha : keep a with
    | true =>
      rw [ha] at hb
      rw [List.filter_cons_of_pos ha, List.filter_cons_of_pos hb] at h
      obtain ⟨rfl, hrest⟩ := List.cons.inj h
      rw [ih htail.symm hrest]
    | false =>
      rw [ha] at hb
      rw [List.filter_cons_of_neg (by simp [ha]), List.filter_cons_of_neg (by simp [hb])] at h
      rw [hout a b ha hb, ih htail.symm h]

theorem map_squeeze_statements_iff (script : Text) :
    (statements (newlined script)).map squeeze = (statements script).map squeeze ↔
      Detached script := by
  have places : ((pieces .code 0 (newlined script)).map gist).map (!·.isEmpty) =
      ((pieces .code 0 script).map gist).map (!·.isEmpty) := by
    have eq (ps : List Text) : (ps.map gist).map (!·.isEmpty) =
        (ps.map solid).map (!·.isEmpty) := by
      rw [List.map_map, List.map_map]
      refine List.map_congr_left fun p _ => ?_
      simp only [Function.comp_apply, isEmpty_gist, isEmpty_solid]
    rw [eq, eq, map_solid_pieces]
  rw [Detached, ← map_gist_cut_iff, ← pieces_newlined, ← pieces_eq_cut, map_squeeze_statements,
    map_squeeze_statements]
  refine ⟨eq_of_filter_eq (fun a b ha hb => ?_) places, fun h => by rw [h]⟩
  simp only [Bool.not_eq_false', List.isEmpty_iff] at ha hb
  rw [ha, hb]

/-- A script with a line end in the place of each comment has statements of the same characters, but
for blanks. Up to runs of blanks they are the same statements just if each comment inside a
statement has a blank beside it, and then the schemas are the same up to runs of blanks in types and
expressions. -/
theorem read_newlined (script : Text) :
    (statements (newlined script)).map solid = (statements script).map solid ∧
    ((statements (newlined script)).map squeeze = (statements script).map squeeze ↔
      Detached script) ∧
    (Detached script →
      (∀ s ∈ statements script ++ statements (newlined script), Statement.QueryFirst s) →
      (read (newlined script)).schema.squeeze = (read script).schema.squeeze) := by
  refine ⟨?_, map_squeeze_statements_iff script, fun hdetached hquery => ?_⟩
  · rw [map_solid_statements, map_solid_statements, map_solid_pieces]
  · rw [List.forall_mem_append] at hquery
    rw [read_eq, read_eq]
    exact squeeze_schemaOf ((map_squeeze_statements_iff script).mpr hdetached) hquery.2 hquery.1

/-- Comments between and inside statements, in brackets, in front of a semicolon and at the end. -/
def commented : Text :=
  "-- tables\nDEFINE TABLE post; # a view\nDEFINE TABLE recent DROP AS SELECT * // all\n FROM " ++
    "post; DEFINE FIELD tags ON post TYPE array< -- words\n string> DEFAULT [ # none\n ]--\n; " ++
    "DEFINE EVENT log ON post THEN \x7b CREATE a; -- one; here\n CREATE b \x7d // end"

theorem read_newlined_commented : Detached commented ∧
    (statements (newlined commented)).map squeeze = (statements commented).map squeeze ∧
    (read (newlined commented)).schema.squeeze = (read commented).schema.squeeze := by
  have detached : Detached commented := by decide +kernel
  have query : ∀ s ∈ statements commented ++ statements (newlined commented),
      Statement.QueryFirst s := by decide +kernel
  obtain ⟨-, same, schema⟩ := read_newlined commented
  exact ⟨detached, same.mpr detached, schema detached query⟩

/-- A comment directly behind a type. -/
def attached : Text := "DEFINE TABLE post; DEFINE FIELD title ON post TYPE string-- note\nREADONLY"

/-- The type and the keyword on the next line are read as one word. -/
theorem not_read_newlined : ¬∀ script : Text,
    (read (newlined script)).schema.squeeze = (read script).schema.squeeze := by
  intro h
  have differ : (read (newlined attached)).schema.squeeze ≠ (read attached).schema.squeeze := by
    decide +kernel
  exact differ (h attached)

end Script

end SchemaDrift
