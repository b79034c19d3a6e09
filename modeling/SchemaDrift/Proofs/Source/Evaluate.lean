import SchemaDrift.Proofs.Source.Value

namespace SchemaDrift.Source

/-!
# Evaluating a source

A source is read from left to right. Attributes and imports are passed over, and the expression in
the body of a function is evaluated on a stack of the brackets that are open. Comments and blanks
mean nothing.
-/

/-- A word, a quoted literal, or any other character. -/
inductive Token where
  | word (t : Text)
  | literal (t : Text)
  | mark (c : Char)

/-- What an expression has come to. -/
inductive Operand where
  | none
  | path (p : Text)
  | value (v : Value)
  /-- A value with a dot behind it. -/
  | receiver (v : Value)
  /-- A value with the name of a method behind it. -/
  | method (v : Value) (name : Text)

/-- What a bracket was opened for. -/
inductive Opening where
  | body (function : Text)
  | tuple
  | list
  | call (path : Text)
  | method (receiver : Value) (name : Text)

/-- The contents of an open bracket: the finished elements, and the last one. -/
structure Frame where
  opening : Opening
  args : List Value := []
  operand : Operand := .none

/-- How far an item outside the functions, or the head of a function, is read. -/
inductive Heading where
  | none
  | attribute
  | imports
  | keyword
  | named (function : Text)

/-- What the characters that are being read belong to. -/
inductive Mode where
  | code (word : Text)
  | slash
  | comment
  | literal (t : Text)
  | escape (t : Text)
  /-- A number in a literal, before its brace. -/
  | brace (t : Text)
  | digits (t : Text) (n : Nat)

structure Machine where
  mode : Mode := .code []
  heading : Heading := .none
  frames : List Frame := []
  /-- The functions that were read, with their values. -/
  functions : List (Text × Value) := []

/-- The value of a finished operand, if there is one. -/
def Operand.finish? : Operand → Option (List Value)
  | none => some []
  | path p => (constant? p).map ([·])
  | value v => some [v]
  | _ => Option.none

namespace Machine

/-- The value of a call of a function of the library or of the source. -/
def call? (functions : List (Text × Value)) (path : Text) (args : List Value) : Option Value :=
  match Function.ofPath? path with
  | some f => f.invoke? args
  | none => if args.isEmpty then functions.lookup path else none

/-- The value of a bracket with these contents. -/
def value? (functions : List (Text × Value)) : Opening → List Value → Option Value
  | .tuple, [.text name, .declaration d] => some (.named name d)
  | .list, args => some (.list args)
  | .call path, args => call? functions path args
  | .method v name, args => (Method.ofName? name).bind fun m => m.invoke? v args
  | .body _, [v] => some v
  | _, _ => none

/-- The value of a bracket that is closed. -/
def close? (functions : List (Text × Value)) (f : Frame) : Option Value := do
  let last ← f.operand.finish?
  value? functions f.opening (f.args ++ last)

/-- Goes on behind a closed bracket. -/
def resume? (m : Machine) (f : Frame) : List Frame → Option Machine
  | [] => none
  | g :: rest => do
    let v ← close? m.functions f
    return { m with frames := { g with operand := .value v } :: rest }

/-- Reads a mark inside the body of a function. -/
def mark? (m : Machine) (f : Frame) (rest : List Frame) (c : Char) : Option Machine :=
  match c, f.operand, f.opening with
  | '(', .none, _ => some { m with frames := ⟨.tuple, [], .none⟩ :: f :: rest }
  | '(', .path p, _ =>
    some { m with frames := ⟨.call p, [], .none⟩ :: { f with operand := .none } :: rest }
  | '(', .method v name, _ =>
    some { m with frames := ⟨.method v name, [], .none⟩ :: { f with operand := .none } :: rest }
  | '[', .none, _ => some { m with frames := ⟨.list, [], .none⟩ :: f :: rest }
  | '[', .path p, _ =>
    if p = "vec!" then
      some { m with frames := ⟨.list, [], .none⟩ :: { f with operand := .none } :: rest }
    else none
  | ')', _, .tuple | ')', _, .call _ | ')', _, .method _ _ => m.resume? f rest
  | ']', _, .list => m.resume? f rest
  | ',', .none, _ => none
  | ',', o, _ => do
    let vs ← o.finish?
    return { m with frames := { f with args := f.args ++ vs, operand := .none } :: rest }
  | '.', .value v, _ => some { m with frames := { f with operand := .receiver v } :: rest }
  | '&', .none, _ => some m
  | '\x7d', _, .body function => do
    let v ← close? m.functions f
    return { m with frames := rest, functions := (function, v) :: m.functions }
  | _, _, _ => none

/-- Reads a word outside all functions. -/
def itemWord? (m : Machine) (w : Text) : Option Machine :=
  match m.heading with
  | .none =>
    if w = "pub" then some m
    else if w = "use" then some { m with heading := .imports }
    else if w = "fn" then some { m with heading := .keyword }
    else none
  | .keyword => some { m with heading := .named w }
  | _ => some m

/-- Reads a mark outside all functions. -/
def itemMark? (m : Machine) (c : Char) : Option Machine :=
  match m.heading, c with
  | .none, '#' => some { m with heading := .attribute }
  | .none, _ | .keyword, _ => none
  | .attribute, ']' | .imports, ';' => some { m with heading := .none }
  | .named function, '\x7b' =>
    some { m with heading := .none, frames := [⟨.body function, [], .none⟩] }
  | _, _ => some m

def token? (m : Machine) (token : Token) : Option Machine :=
  match m.frames, token with
  | [], .word w => m.itemWord? w
  | [], .mark c => m.itemMark? c
  | [], .literal _ => none
  | f :: rest, .word w =>
    match f.operand with
    | .none => some { m with frames := { f with operand := .path w } :: rest }
    | .receiver v => some { m with frames := { f with operand := .method v w } :: rest }
    | _ => none
  | f :: rest, .literal t =>
    match f.operand with
    | .none => some { m with frames := { f with operand := .value (.text t) } :: rest }
    | _ => none
  | f :: rest, .mark c => m.mark? f rest c

/-- Whether the character is part of a path or of the name of a macro. -/
def isWordChar (c : Char) : Bool := isIdentChar c || c == ':' || c == '!'

/-- The character behind a backslash. -/
def escaped? (c : Char) : Option Char :=
  ([('0', '\x00'), ('t', '\t'), ('n', '\n'), ('r', '\r'), ('"', '"'), ('\'', '\''), ('\\', '\\')] :
    List (Char × Char)).lookup c

def hexValue? (c : Char) : Option Nat :=
  if '0' ≤ c ∧ c ≤ '9' then some (c.toNat - '0'.toNat)
  else if 'a' ≤ c ∧ c ≤ 'f' then some (c.toNat - 'a'.toNat + 10)
  else none

/-- Reads a character. -/
def step? (m : Machine) (c : Char) : Option Machine :=
  match m.mode with
  | .code word =>
    if isWordChar c then some { m with mode := .code (word ++ [c]) }
    else do
      let m := { m with mode := .code [] }
      let m ← if word.isEmpty then some m else m.token? (.word word)
      if Text.isBlank c then some m
      else if c = '"' then some { m with mode := .literal [] }
      else if c = '/' then some { m with mode := .slash }
      else m.token? (.mark c)
  | .slash => if c = '/' then some { m with mode := .comment } else none
  | .comment =>
    if c = '\n' then some { m with mode := .code [] } else if c = '\r' then none else some m
  | .literal t =>
    if c = '"' then token? { m with mode := .code [] } (.literal t)
    else if c = '\\' then some { m with mode := .escape t }
    else some { m with mode := .literal (t ++ [c]) }
  | .escape t =>
    if c = 'u' then some { m with mode := .brace t }
    else (escaped? c).map fun e => { m with mode := .literal (t ++ [e]) }
  | .brace t => if c = '\x7b' then some { m with mode := .digits t 0 } else none
  | .digits t n =>
    if c = '\x7d' then some { m with mode := .literal (t ++ [Char.ofNat n]) }
    else (hexValue? c).map fun d => { m with mode := .digits t (16 * n + d) }

/-- Reads a text. -/
def read? (m : Machine) (t : Text) : Option Machine := t.foldlM step? m

end Machine

/-- The definitions that a source lists, if it is read to its end. -/
def definitions? (source : Text) : Option (List Registration) := do
  match ← Machine.read? {} source with
  | { mode := .code [], heading := .none, frames := [], functions } =>
    match functions.lookup aggregate with
    | some (.list vs) => vs.mapM Value.definition?
    | _ => none
  | _ => none

end SchemaDrift.Source
