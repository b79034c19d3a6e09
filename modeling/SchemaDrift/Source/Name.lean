import SchemaDrift.Text.Quoted

namespace SchemaDrift.Source

/-!
# Names in sources

Each table has a file and a module named after it, and each index a function. A name that is not an
identifier of the source language is changed into one.
-/

/-- The words with a meaning of their own. -/
def keywords : List Text :=
  List.map String.toList
    ["as", "async", "await", "break", "const", "continue", "dyn", "else", "enum", "extern", "false",
      "fn", "for", "gen", "if", "impl", "in", "let", "loop", "match", "mod", "move", "mut", "pub",
      "ref", "return", "static", "struct", "trait", "true", "type", "unsafe", "use", "where",
      "while", "abstract", "become", "box", "do", "final", "macro", "override", "priv", "try",
      "typeof", "unsized", "virtual", "yield"]

/-- The words that cannot be used as names in any spelling. -/
def reserved : List Text := ["crate", "self", "Self", "super", "_"]

/-- The file that declares the modules. -/
def indexFile : Text := "mod.rs"

/-- The function that lists what a file defines. -/
def aggregate : Text := "definitions"

def fileOf (table : Text) : Text := table ++ ".rs"

def tableOf? (file : Text) : Option Text :=
  if file = indexFile then none else (Text.stripEnd ".rs" file).filter (!·.isEmpty)

/-- Whether the character can be part of an identifier. -/
def isIdentChar (c : Char) : Bool := c.isAlphanum || c == '_'

def startsWithDigit (name : Text) : Bool := name.head?.any Char.isDigit

/-- Whether a function of an index cannot have this name. -/
def isTaken (ident : Text) : Bool :=
  ident.isEmpty || startsWithDigit ident || ident == "model" || ident == aggregate ||
    keywords.contains ident || reserved.contains ident

/-- The function of an index: lower case, with underscores for the characters that an identifier
cannot have. -/
def functionOf (index : Text) : Text :=
  let ident := index.map fun c => if isIdentChar c then c.toLower else '_'
  if isTaken ident then "index_" ++ ident else ident

theorem isTaken_index_append (t : Text) : isTaken ("index_" ++ t) = false := by
  have first (word : Text) (h : Text.stripStart "index_" word = none) :
      ("index_" ++ t : Text) ≠ word := by
    rintro rfl
    rw [Text.stripStart_append] at h
    cases h
  have notIn (words : List Text) (h : ∀ word ∈ words, Text.stripStart "index_" word = none) :
      words.contains ("index_" ++ t) = false := by
    simp only [List.contains_eq_mem, decide_eq_false_iff_not]
    exact fun hm => first _ (h _ hm) rfl
  have hm : (("index_" ++ t : Text) == "model") = false := by simp
  have ha : (("index_" ++ t : Text) == aggregate) = false := by
    simpa using first aggregate (by decide)
  unfold isTaken
  rw [notIn keywords (by decide), notIn reserved (by decide), hm, ha]
  simp [startsWithDigit]

/-- No index takes a name with another use in its file. -/
theorem isTaken_functionOf (index : Text) : isTaken (functionOf index) = false := by
  unfold functionOf
  simp only
  split
  · exact isTaken_index_append _
  · exact Bool.eq_false_iff.mpr (by assumption)

theorem isIdentChar_toLower {c : Char} (h : isIdentChar c = true) :
    isIdentChar c.toLower = true := by
  unfold Char.toLower
  split
  · rename_i hc
    have low : 65 ≤ c.val.toNat := UInt32.le_iff_toNat_le.mp hc.1
    have high : c.val.toNat ≤ 90 := UInt32.le_iff_toNat_le.mp hc.2
    have sum : (c.val + 32).toNat = c.val.toNat + 32 := by
      rw [UInt32.toNat_add, show (32 : UInt32).toNat = 32 from rfl]
      omega
    have lower : (decide (97 ≤ c.val + 32) && decide (c.val + 32 ≤ 122)) = true := by
      rw [Bool.and_eq_true_iff, decide_eq_true_iff, decide_eq_true_iff,
        UInt32.le_iff_toNat_le, UInt32.le_iff_toNat_le, sum,
        show (97 : UInt32).toNat = 97 from rfl, show (122 : UInt32).toNat = 122 from rfl]
      omega
    exact Bool.or_eq_true_iff.mpr
      (.inl (Bool.or_eq_true_iff.mpr (.inl (Bool.or_eq_true_iff.mpr (.inr lower)))))
  · exact h

/-- The function of an index is an identifier. -/
theorem all_isIdentChar_functionOf (index : Text) :
    (functionOf index).all isIdentChar = true := by
  have word : (index.map fun c => if isIdentChar c then c.toLower else '_').all isIdentChar := by
    rw [List.all_map, List.all_eq_true]
    intro c _
    by_cases h : isIdentChar c
    · simpa [h] using isIdentChar_toLower h
    · simp only [Function.comp, h, Bool.false_eq_true, ↓reduceIte]
      decide
  unfold functionOf
  simp only
  split
  · rw [List.all_append, word]
    decide
  · exact word

/-- The text without any number of copies of a pattern in front. -/
def stripAll (pattern t : Text) : Text :=
  match _h : Text.stripStart pattern t with
  | none => t
  | some rest => if pattern.isEmpty then t else stripAll pattern rest
termination_by t.length
decreasing_by
  have := congrArg List.length (Text.stripStart_eq_some_iff.mp _h)
  have : pattern.length ≠ 0 := by simpa using ‹¬pattern.isEmpty = true›
  simp only [List.length_append] at *
  omega

/-- Whether the module of a table can have the name of the table. -/
def isPlain (table : Text) : Bool :=
  table.all isIdentChar && !startsWithDigit table && !reserved.contains table

/-- The module of a table. A keyword is written as a raw identifier. -/
def moduleOf (table : Text) : Text :=
  if !isPlain table then "table_" ++ stripAll "index_" (functionOf table)
  else if keywords.contains table then "r#" ++ table
  else table

def moduleDeclaration (table : Text) : Text :=
  (if isPlain table then [] else "#[path = " ++ Text.quote (fileOf table) ++ "]\n" : Text) ++
    "pub mod " ++ moduleOf table ++ ";"

end SchemaDrift.Source
