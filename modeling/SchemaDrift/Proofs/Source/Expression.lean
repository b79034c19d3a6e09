import SchemaDrift.Proofs.Source.Evaluate
import SchemaDrift.Proofs.Text.Parts

namespace SchemaDrift.Source

/-!
# Values of expressions

Each form of expression leaves its value behind wherever it stands: quoted literals, calls and calls
of methods. So the value of an expression is found from those of its parts.
-/

namespace Machine

variable {m : Machine}

/-- The machine in front of code, with these brackets open. -/
def within (functions : List (Text × Value)) (frames : List Frame) : Machine :=
  { frames := frames, functions := functions }

theorem read?_nil (m : Machine) : m.read? [] = some m := rfl

theorem read?_append (m : Machine) (a b : Text) :
    m.read? (a ++ b) = (m.read? a).bind fun m => m.read? b := List.foldlM_append

theorem read?_cons (m : Machine) (c : Char) (t : Text) :
    m.read? (c :: t) = (m.step? c).bind fun m => m.read? t := List.foldlM_cons

theorem read?_singleton (m : Machine) (c : Char) : m.read? [c] = m.step? c := by
  rw [read?_cons]
  cases m.step? c <;> rfl

/-! ## Literals -/

/-- The machine inside a literal. -/
def inLiteral (m : Machine) (t : Text) : Machine := { m with mode := .literal t }

theorem hexValue?_digitChar : ∀ d < 16, hexValue? (Nat.digitChar d) = some d := by decide

theorem digitChar_ne_close : ∀ d < 16, Nat.digitChar d ≠ '\x7d' := by decide

/-- The hexadecimal digits of a number are read as the number. -/
theorem read?_toDigits (m : Machine) (t : Text) (n : Nat) :
    read? { m with mode := .digits t 0 } (Nat.toDigits 16 n) =
      some { m with mode := .digits t n } := by
  have digit (k d : Nat) (h : d < 16) : read? { m with mode := .digits t k } [Nat.digitChar d] =
      some { m with mode := .digits t (16 * k + d) } := by
    simp only [read?_cons, read?_nil, step?, if_neg (digitChar_ne_close d h),
      hexValue?_digitChar d h]
    rfl
  induction n using Nat.strongRecOn with
  | ind n ih =>
    by_cases h : n < 16
    · rw [Nat.toDigits_of_lt_base h, digit 0 n h]
      simp
    · have hlast : n % 16 < 16 := Nat.mod_lt n (by decide)
      have hsplit := Nat.toDigits_append_toDigits (b := 16) (n := n / 16) (d := n % 16)
        (by decide) (by omega) hlast
      rw [Nat.toDigits_of_lt_base hlast, Nat.div_add_mod] at hsplit
      rw [← hsplit, read?_append, ih (n / 16) (by omega), Option.bind_some, digit _ _ hlast,
        Nat.div_add_mod]

theorem read?_escape (m : Machine) (t : Text) (c : Char) :
    (m.inLiteral t).read? (Text.escape c) = some (m.inLiteral (t ++ [c])) := by
  unfold Text.escape
  split
  · rename_i h
    rw [h]
    rfl
  split
  · rename_i h
    rw [h]
    rfl
  split
  · rename_i h
    rw [h]
    rfl
  split
  · rename_i h
    rw [h]
    rfl
  split
  · rename_i h
    rw [h]
    rfl
  split
  · rename_i h
    rw [h]
    rfl
  rename_i hquote hbackslash
  split
  · have opening : (m.inLiteral t).read? ("\\u\x7b" : Text) =
        some { m with mode := .digits t 0 } := rfl
    have closing : read? { m with mode := .digits t c.toNat } ['\x7d'] =
        some (m.inLiteral (t ++ [Char.ofNat c.toNat])) := rfl
    rw [Text.numbered, read?_append, read?_append, opening, Option.bind_some, read?_toDigits,
      Option.bind_some]
    rw [Char.ofNat_toNat] at closing
    exact closing
  · simp only [read?_cons, read?_nil, inLiteral, step?, if_neg hquote, if_neg hbackslash]
    rfl

/-- A quoted text is read as a literal of this text. -/
theorem read?_quote (h : m.mode = .code []) (t : Text) :
    m.read? (Text.quote t) = m.token? (.literal t) := by
  have inside (s : Text) : (m.inLiteral s).read? (t.flatMap Text.escape) =
      some (m.inLiteral (s ++ t)) := by
    induction t generalizing s with
    | nil => simp [read?_nil]
    | cons c t ih =>
      rw [List.flatMap_cons, read?_append, read?_escape, Option.bind_some, ih]
      simp
  have opening : m.step? '"' = some (m.inLiteral []) := by
    simp only [step?, h]
    rfl
  have closing : (m.inLiteral t).step? '"' = m.token? (.literal t) := by
    simp only [step?, inLiteral, if_true, h.symm]
  rw [Text.quote, List.cons_append, read?_cons, opening, Option.bind_some, read?_append, inside,
    Option.bind_some, List.nil_append, read?_singleton, closing]

/-! ## Words, marks and blanks -/

/-- Whether the character stands for itself outside words. -/
def isMark (c : Char) : Bool := !isWordChar c && !Text.isBlank c && c != '"' && c != '/'

theorem read?_word (h : m.mode = .code []) {w : Text} (hw : ∀ c ∈ w, isWordChar c = true) :
    m.read? w = some { m with mode := .code w } := by
  have continued (u : Text) : read? { m with mode := .code u } w =
      some { m with mode := .code (u ++ w) } := by
    induction w generalizing u with
    | nil => simp [read?_nil]
    | cons c w ih =>
      have step : step? { m with mode := .code u } c =
          some { m with mode := .code (u ++ [c]) } := by
        simp only [step?, if_pos (hw c List.mem_cons_self)]
      rw [read?_cons, step, Option.bind_some, ih fun d hd => hw d (List.mem_cons_of_mem c hd)]
      simp
  have start : m = { m with mode := .code [] } := by rw [← h]
  rw [start]
  exact continued []

theorem step?_mark (h : m.mode = .code []) {c : Char} (hc : isMark c = true) :
    m.step? c = m.token? (.mark c) := by
  simp only [isMark, Bool.and_eq_true, Bool.not_eq_true', bne_iff_ne, ne_eq] at hc
  obtain ⟨⟨⟨hword, hblank⟩, hquote⟩, hslash⟩ := hc
  have start : m = { m with mode := .code [] } := by rw [← h]
  simp [step?, h, hword, hblank, hquote, hslash, ← start]

theorem step?_word_mark {w : Text} (hw : w ≠ []) {c : Char} (hc : isMark c = true) :
    step? { m with mode := .code w } c =
      (token? { m with mode := .code [] } (.word w)).bind fun m => m.token? (.mark c) := by
  simp only [isMark, Bool.and_eq_true, Bool.not_eq_true', bne_iff_ne, ne_eq] at hc
  obtain ⟨⟨⟨hword, hblank⟩, hquote⟩, hslash⟩ := hc
  simp [step?, hw, hword, hblank, hquote, hslash]

/-- Whether the text is made of spaces and newlines. -/
def IsLayout (t : Text) : Prop := ∀ c ∈ t, c = ' ' ∨ c = '\n'

instance (t : Text) : Decidable (IsLayout t) :=
  inferInstanceAs (Decidable (∀ c ∈ t, c = ' ' ∨ c = '\n'))

theorem IsLayout.append {a b : Text} (ha : IsLayout a) (hb : IsLayout b) : IsLayout (a ++ b) :=
  fun c hc => (List.mem_append.mp hc).elim (ha c) (hb c)

theorem read?_layout (h : m.mode = .code []) {t : Text} (ht : IsLayout t) : m.read? t = some m := by
  have step (c : Char) (hc : c = ' ' ∨ c = '\n') : m.step? c = some m := by
    have start : m = { m with mode := .code [] } := by rw [← h]
    rcases hc with rfl | rfl
    · rw [start]
      rfl
    · rw [start]
      rfl
  induction t with
  | nil => rfl
  | cons c t ih =>
    rw [read?_cons, step c (ht c List.mem_cons_self), Option.bind_some,
      ih fun d hd => ht d (List.mem_cons_of_mem c hd)]

end Machine

/-! ## Expressions -/

open SchemaDrift.Source.Machine

/-- Whether an expression leaves a value behind, wherever it stands. -/
def Yields (functions : List (Text × Value)) (e : Text) (v : Value) : Prop :=
  ∀ opening args rest, (within functions (⟨opening, args, .none⟩ :: rest)).read? e =
    some (within functions (⟨opening, args, .value v⟩ :: rest))

/-- Whether an expression in front of a mark is an element with a value. -/
def YieldsItem (functions : List (Text × Value)) (e : Text) (v : Value) : Prop :=
  ∀ opening args rest c, isMark c = true → ∃ operand, Operand.finish? operand = some [v] ∧
    (within functions (⟨opening, args, .none⟩ :: rest)).read? (e ++ [c]) =
      (within functions (⟨opening, args, operand⟩ :: rest)).token? (.mark c)

/-- Whether the text in front of a closing bracket leaves these values behind. -/
def YieldsAll (functions : List (Text × Value)) (t : Text) (vs : List Value) : Prop :=
  ∀ opening args rest c, isMark c = true → ∃ before operand last,
    Operand.finish? operand = some last ∧ before ++ last = vs ∧
    (within functions (⟨opening, args, .none⟩ :: rest)).read? (t ++ [c]) =
      (within functions (⟨opening, args ++ before, operand⟩ :: rest)).token? (.mark c)

section Expressions

variable {functions : List (Text × Value)} {e t : Text} {v w : Value} {vs : List Value}

theorem yields_quote (t : Text) : Yields functions (Text.quote t) (.text t) := by
  intro opening args rest
  rw [read?_quote rfl]
  rfl

theorem Yields.layout (h : Yields functions e v) {t : Text} (ht : IsLayout t) :
    Yields functions (e ++ t) v := by
  intro opening args rest
  rw [read?_append, h, Option.bind_some, read?_layout rfl ht]

theorem Yields.after_layout (h : Yields functions e v) {t : Text} (ht : IsLayout t) :
    Yields functions (t ++ e) v := by
  intro opening args rest
  rw [read?_append, read?_layout rfl ht, Option.bind_some, h]

theorem read?_mark (m : Machine) (h : m.mode = .code []) {c : Char} (hc : isMark c = true) :
    m.read? [c] = m.token? (.mark c) := by
  rw [read?_singleton, step?_mark h hc]

theorem yieldsAll_nil (ht : IsLayout t) : YieldsAll functions t [] := by
  intro opening args rest c hc
  refine ⟨[], .none, [], rfl, rfl, ?_⟩
  rw [read?_append, read?_layout rfl ht, Option.bind_some, read?_mark _ rfl hc, List.append_nil]

theorem YieldsAll.after_layout (h : YieldsAll functions e vs) (ht : IsLayout t) :
    YieldsAll functions (t ++ e) vs := by
  intro opening args rest c hc
  obtain ⟨before, operand, last, hfinish, hvs, hread⟩ := h opening args rest c hc
  refine ⟨before, operand, last, hfinish, hvs, ?_⟩
  rw [List.append_assoc, read?_append, read?_layout rfl ht, Option.bind_some, hread]

theorem Yields.item (h : Yields functions e v) : YieldsItem functions e v := by
  intro opening args rest c hc
  refine ⟨.value v, rfl, ?_⟩
  rw [read?_append, h, Option.bind_some, read?_mark _ rfl hc]

/-- A word that is not called stands for a constant. -/
theorem yieldsItem_constant {p : Text} (hp : ∀ c ∈ p, isWordChar c = true) (hne : p ≠ [])
    (hv : constant? p = some v) : YieldsItem functions p v := by
  intro opening args rest c hc
  refine ⟨.path p, by rw [Operand.finish?, hv]; rfl, ?_⟩
  rw [read?_append, read?_word rfl hp, Option.bind_some, read?_singleton, step?_word_mark hne hc]
  rfl

theorem YieldsItem.yieldsAll (h : YieldsItem functions e v) : YieldsAll functions e [v] := by
  intro opening args rest c hc
  obtain ⟨operand, hfinish, hread⟩ := h opening args rest c hc
  exact ⟨[], operand, [v], hfinish, rfl, by rw [hread, List.append_nil]⟩

theorem Yields.yieldsAll (h : Yields functions e v) : YieldsAll functions e [v] := h.item.yieldsAll

/-- A comma ends an element. -/
theorem YieldsItem.cons {t separator : Text} (h : YieldsItem functions e v)
    (hs : IsLayout separator) (ht : YieldsAll functions t vs) :
    YieldsAll functions (e ++ ',' :: (separator ++ t)) (v :: vs) := by
  intro opening args rest c hc
  obtain ⟨before, operand, last, hfinish, hvs, hread⟩ := ht opening (args ++ [v]) rest c hc
  refine ⟨v :: before, operand, last, hfinish, by rw [← hvs]; rfl, ?_⟩
  obtain ⟨item, hitem, hreadItem⟩ := h opening args rest ',' (by decide)
  have comma : (within functions (⟨opening, args, item⟩ :: rest)).token? (.mark ',') =
      some (within functions (⟨opening, args ++ [v], .none⟩ :: rest)) := by
    cases item with
    | none => cases hitem
    | path p =>
      simp only [token?, within, mark?, hitem]
      rfl
    | value w =>
      simp only [token?, within, mark?, hitem]
      rfl
    | receiver _ => cases hitem
    | method _ _ => cases hitem
  have whole : e ++ ',' :: (separator ++ t) ++ [c] = (e ++ [',']) ++ (separator ++ (t ++ [c])) := by
    simp
  rw [whole, read?_append, hreadItem, comma, Option.bind_some, read?_append, read?_layout rfl hs,
    Option.bind_some, hread, List.append_assoc]
  rfl

theorem read?_word_mark {m : Machine} (h : m.mode = .code []) {p : Text}
    (hp : ∀ c ∈ p, isWordChar c = true) (hne : p ≠ []) {c : Char} (hc : isMark c = true) :
    m.read? (p ++ [c]) = (m.token? (.word p)).bind fun m => m.token? (.mark c) := by
  have start : m = { m with mode := .code [] } := by rw [← h]
  rw [read?_append, read?_word h hp, Option.bind_some, read?_singleton, step?_word_mark hne hc,
    ← start]

/-- A bracket leaves the value of its contents behind. -/
theorem YieldsAll.close (h : YieldsAll functions t vs) {opening : Opening} {c : Char}
    (hc : isMark c = true) (hv : value? functions opening vs = some v)
    (hclose : ∀ m before operand rest,
      mark? m ⟨opening, before, operand⟩ rest c = m.resume? ⟨opening, before, operand⟩ rest)
    (f : Frame) (rest : List Frame) :
    (within functions (⟨opening, [], .none⟩ :: f :: rest)).read? (t ++ [c]) =
      some (within functions ({ f with operand := .value v } :: rest)) := by
  obtain ⟨before, operand, last, hfinish, hvs, hread⟩ := h opening [] (f :: rest) c hc
  have value : close? functions ⟨opening, before, operand⟩ = some v := by
    simp [close?, hfinish, hvs, hv]
  have token (m : Machine) (g : Frame) (gs : List Frame) (hm : m.frames = g :: gs) :
      m.token? (.mark c) = m.mark? g gs c := by
    unfold token?
    rw [hm]
  rw [hread, List.nil_append, token _ _ _ rfl, hclose]
  simp only [resume?, within, value, Option.bind_eq_bind, Option.bind_some]
  rfl

/-- Contents between what opens a bracket and what closes it have a value together. -/
theorem YieldsAll.between (h : YieldsAll functions t vs) {opener : Text}
    {opening : Opening} {c : Char}
    (hopen : ∀ outer args rest, (within functions (⟨outer, args, .none⟩ :: rest)).read? opener =
      some (within functions (⟨opening, [], .none⟩ :: ⟨outer, args, .none⟩ :: rest)))
    (hc : isMark c = true) (hv : value? functions opening vs = some v)
    (hclose : ∀ m before operand rest,
      mark? m ⟨opening, before, operand⟩ rest c = m.resume? ⟨opening, before, operand⟩ rest) :
    Yields functions (opener ++ (t ++ [c])) v := by
  intro outer args rest
  rw [read?_append, hopen, Option.bind_some]
  exact h.close hc hv hclose _ rest

/-- A call has the value that the function has for these arguments. -/
theorem YieldsAll.call (h : YieldsAll functions t vs) {p : Text}
    (hp : ∀ c ∈ p, isWordChar c = true) (hne : p ≠ []) (hv : call? functions p vs = some v) :
    Yields functions (p ++ '(' :: (t ++ [')'])) v := by
  have opened (outer : Opening) (args : List Value) (rest : List Frame) :
      (within functions (⟨outer, args, .none⟩ :: rest)).read? (p ++ ['(']) =
        some (within functions (⟨.call p, [], .none⟩ :: ⟨outer, args, .none⟩ :: rest)) := by
    rw [read?_word_mark rfl hp hne (by decide)]
    rfl
  have value : value? functions (.call p) vs = some v := hv
  rw [show p ++ '(' :: (t ++ [')']) = (p ++ ['(']) ++ (t ++ [')']) by simp]
  exact h.between opened (by decide) value fun _ _ operand _ => by cases operand <;> rfl

theorem isWordChar_name : ∀ m : Method, ∀ c ∈ m.name, isWordChar c = true := by
  intro m
  cases m <;> decide

theorem name_ne_nil : ∀ m : Method, m.name ≠ [] := by
  intro m
  cases m <;> decide

theorem ofName?_name (m : Method) : Method.ofName? m.name = some m := by cases m <;> decide

/-- A call of a method has the value that the method has for its receiver and these arguments. -/
theorem Yields.method (he : Yields functions e v) (h : YieldsAll functions t vs) {m : Method}
    (hw : m.invoke? v vs = some w) :
    Yields functions (e ++ '.' :: (m.name ++ '(' :: (t ++ [')']))) w := by
  intro opening args rest
  have dot : (within functions (⟨opening, args, .value v⟩ :: rest)).step? '.' =
      some (within functions (⟨opening, args, .receiver v⟩ :: rest)) := by
    rw [step?_mark rfl (by decide)]
    rfl
  have opened : (within functions (⟨opening, args, .receiver v⟩ :: rest)).read? (m.name ++ ['(']) =
      some (within functions
        (⟨.method v m.name, [], .none⟩ :: ⟨opening, args, .none⟩ :: rest)) := by
    rw [read?_word_mark rfl (isWordChar_name m) (name_ne_nil m) (by decide)]
    rfl
  have value : value? functions (.method v m.name) vs = some w := by
    rw [value?, ofName?_name, Option.bind_some, hw]
  rw [read?_append, he, Option.bind_some, read?_cons, dot, Option.bind_some,
    show m.name ++ '(' :: (t ++ [')']) = (m.name ++ ['(']) ++ (t ++ [')']) by simp, read?_append,
    opened, Option.bind_some]
  exact h.close (by decide) value (fun _ _ operand _ => by cases operand <;> rfl) _ rest

/-- A list has the values of its elements. -/
theorem YieldsAll.list (h : YieldsAll functions t vs) :
    Yields functions ('[' :: (t ++ [']'])) (.list vs) := by
  have opened (outer : Opening) (args : List Value) (rest : List Frame) :
      (within functions (⟨outer, args, .none⟩ :: rest)).read? ['['] =
        some (within functions (⟨.list, [], .none⟩ :: ⟨outer, args, .none⟩ :: rest)) := by
    rw [read?_cons, step?_mark rfl (by decide)]
    rfl
  exact h.between opened (by decide) rfl fun _ _ operand _ => by cases operand <;> rfl

theorem YieldsAll.vec (h : YieldsAll functions t vs) :
    Yields functions ("vec![" ++ (t ++ [']'])) (.list vs) :=
  h.between (fun _ _ _ => rfl) (by decide) rfl fun _ _ operand _ => by cases operand <;> rfl

/-- A name and a declaration between brackets are a field. -/
theorem YieldsAll.named {name : Text} {d : Declaration}
    (h : YieldsAll functions t [.text name, .declaration d]) :
    Yields functions ('(' :: (t ++ [')'])) (.named name d) := by
  have opened (outer : Opening) (args : List Value) (rest : List Frame) :
      (within functions (⟨outer, args, .none⟩ :: rest)).read? ['('] =
        some (within functions (⟨.tuple, [], .none⟩ :: ⟨outer, args, .none⟩ :: rest)) := by
    rw [read?_cons, step?_mark rfl (by decide)]
    rfl
  exact h.between opened (by decide) rfl fun _ _ operand _ => by cases operand <;> rfl

end Expressions

end SchemaDrift.Source
