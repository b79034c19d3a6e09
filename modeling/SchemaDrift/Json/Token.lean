import SchemaDrift.Json.Basic

namespace SchemaDrift.Json

/-!
# Tokens of a JSON text

A JSON text is a row of brackets, separators, texts, numbers and the three words, with spaces, tabs
and line ends between them.
-/

inductive Token where
  | openList
  | closeList
  | openObject
  | closeObject
  | comma
  | colon
  | scalar (value : Json)

/-- A piece of a quoted text: a character, or a UTF-16 unit that was written by number. -/
inductive Piece where
  | char (c : Char)
  | unit (n : Nat)

/-- The characters of the pieces; `none` if a surrogate has no partner. -/
def Piece.combine : List Piece → Option Text
  | [] => some []
  | .char c :: rest => (combine rest).map (c :: ·)
  | .unit n :: .unit m :: rest =>
    if 0xD800 ≤ n ∧ n < 0xDC00 then
      if 0xDC00 ≤ m ∧ m < 0xE000 then
        (combine rest).map (Char.ofNat (0x10000 + (n - 0xD800) * 0x400 + (m - 0xDC00)) :: ·)
      else none
    else if 0xDC00 ≤ n ∧ n < 0xE000 then none
    else (combine (.unit m :: rest)).map (Char.ofNat n :: ·)
  | .unit n :: rest =>
    if 0xD800 ≤ n ∧ n < 0xE000 then none else (combine rest).map (Char.ofNat n :: ·)

def hexDigit? (c : Char) : Option Nat :=
  if c.isDigit then some (c.toNat - '0'.toNat)
  else if 'a' ≤ c ∧ c ≤ 'f' then some (c.toNat - 'a'.toNat + 10)
  else if 'A' ≤ c ∧ c ≤ 'F' then some (c.toNat - 'A'.toNat + 10)
  else none

/-- The unit written by four hexadecimal digits. -/
def unit? (a b c d : Char) : Option Nat := do
  let a ← hexDigit? a
  let b ← hexDigit? b
  let c ← hexDigit? c
  let d ← hexDigit? d
  return ((a * 16 + b) * 16 + c) * 16 + d

/-- The character that a backslash and one more character stand for. -/
def escaped? : Char → Option Char
  | '"' => some '"'
  | '\\' => some '\\'
  | '/' => some '/'
  | 'b' => some '\x08'
  | 'f' => some '\x0c'
  | 'n' => some '\n'
  | 'r' => some '\r'
  | 't' => some '\t'
  | _ => none

/-- Reads a quoted text after its opening quote, up to and with the closing one. -/
def quoted? : Text → Option (List Piece × Text)
  | [] => none
  | '\\' :: 'u' :: a :: b :: c :: d :: rest => do
    let n ← unit? a b c d
    let (pieces, rest) ← quoted? rest
    return (.unit n :: pieces, rest)
  | '\\' :: e :: rest => do
    let c ← escaped? e
    let (pieces, rest) ← quoted? rest
    return (.char c :: pieces, rest)
  | c :: rest =>
    if c = '"' then some ([], rest)
    else if c.toNat < 0x20 then none
    else do
      let (pieces, rest) ← quoted? rest
      return (.char c :: pieces, rest)

def digits? (t : Text) : Option Text :=
  match t with
  | [] => none
  | c :: cs => if c.isDigit then some (cs.dropWhile Char.isDigit) else none

/-- What follows the digits before the point: a zero alone, or digits that start with another. -/
def wholePart? : Text → Option Text
  | '0' :: rest => some rest
  | t => digits? t

def fraction? : Text → Option Text
  | '.' :: rest => digits? rest
  | t => some t

def exponent? : Text → Option Text
  | e :: rest =>
    if e = 'e' ∨ e = 'E' then
      match rest with
      | '+' :: rest => digits? rest
      | '-' :: rest => digits? rest
      | rest => digits? rest
    else some (e :: rest)
  | [] => some []

def isNumber (t : Text) : Bool :=
  let unsigned := match t with
    | '-' :: rest => rest
    | t => t
  ((wholePart? unsigned).bind fraction?).bind exponent? == some []

/-- The characters of which words and numbers consist. -/
def isScalarChar (c : Char) : Bool := c.isAlphanum || c == '-' || c == '+' || c == '.'

/-- The value of a word or a number. -/
def scalar? (t : Text) : Option Json :=
  if t = "null" then some .null
  else if t = "true" then some (.bool true)
  else if t = "false" then some (.bool false)
  else if isNumber t then some (.number t)
  else none

def punctuation? : Char → Option Token
  | '[' => some .openList
  | ']' => some .closeList
  | '{' => some .openObject
  | '}' => some .closeObject
  | ',' => some .comma
  | ':' => some .colon
  | _ => none

theorem length_quoted? {t rest : Text} {pieces : List Piece}
    (h : quoted? t = some (pieces, rest)) : rest.length < t.length := by
  fun_induction quoted? t generalizing pieces with
  | case1 => simp at h
  | case2 a b c d tail ih =>
    simp only [Option.bind_eq_bind, Option.bind_eq_some_iff] at h
    obtain ⟨_, _, ⟨p, r⟩, hq, he⟩ := h
    cases he
    have : r.length < tail.length := ih hq
    simp only [List.length_cons]
    omega
  | case3 e tail _ ih =>
    simp only [Option.bind_eq_bind, Option.bind_eq_some_iff] at h
    obtain ⟨_, _, ⟨p, r⟩, hq, he⟩ := h
    cases he
    have : r.length < tail.length := ih hq
    simp only [List.length_cons]
    omega
  | case4 => simp at h; simp [h]
  | case5 => simp at h
  | case6 c tail _ _ _ _ ih =>
    simp only [Option.bind_eq_bind, Option.bind_eq_some_iff] at h
    obtain ⟨⟨p, r⟩, hq, he⟩ := h
    cases he
    have : r.length < tail.length := ih hq
    simp only [List.length_cons]
    omega

/-- The tokens of a text; `none` if some part of it is no token. -/
def tokens? (t : Text) : Option (List Token) :=
  match t with
  | [] => some []
  | c :: cs =>
    if c = ' ' ∨ c = '\t' ∨ c = '\n' ∨ c = '\r' then tokens? cs
    else if c = '"' then
      match _h : quoted? cs with
      | none => none
      | some (pieces, rest) =>
        let value := match Piece.combine pieces with
          | some t => Json.text t
          | none => Json.unreadable
        (tokens? rest).map (.scalar value :: ·)
    else match punctuation? c with
      | some token => (tokens? cs).map (token :: ·)
      | none =>
        match scalar? (c :: cs.takeWhile isScalarChar) with
        | none => none
        | some value => (tokens? (cs.dropWhile isScalarChar)).map (.scalar value :: ·)
termination_by t.length
decreasing_by
  · simp
  · have := length_quoted? _h
    simp only [List.length_cons]
    omega
  · simp
  · have := (List.dropWhile_sublist (p := isScalarChar) (l := cs)).length_le
    simp only [List.length_cons]
    omega

end SchemaDrift.Json
