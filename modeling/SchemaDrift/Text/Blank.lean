import SchemaDrift.Text.Basic

namespace SchemaDrift.Text

/-!
# Blanks

A blank is a character with the Unicode property White_Space. Trimming removes blanks from the ends
of a text.
-/

/-- Whether the character has the property White_Space. -/
def isBlank (c : Char) : Bool :=
  let n := c.toNat
  (9 ≤ n && n ≤ 13) || n == 0x20 || n == 0x85 || n == 0xA0 || n == 0x1680 ||
    (0x2000 ≤ n && n ≤ 0x200A) || n == 0x2028 || n == 0x2029 || n == 0x202F || n == 0x205F ||
    n == 0x3000

/-- Whether the character is a space or a tab, the two blanks that indent a line. -/
def isIndent (c : Char) : Bool := c == ' ' || c == '\t'

def trimStart (t : Text) : Text := t.dropWhile isBlank

def trimEnd (t : Text) : Text := dropEndWhile isBlank t

def trim (t : Text) : Text := trimEnd (trimStart t)

def allBlank (t : Text) : Bool := t.all isBlank

/-- The blanks in front, if there is at least one. -/
def skipBlanks? : Text → Option Text
  | [] => none
  | c :: cs => if isBlank c then some (trimStart cs) else none

@[simp] theorem trim_nil : trim [] = [] := rfl

@[simp] theorem isBlank_space : isBlank ' ' = true := by decide

@[simp] theorem isBlank_newline : isBlank '\n' = true := by decide

theorem trimStart_cons_of_not_blank {c : Char} (cs : Text) (h : isBlank c = false) :
    trimStart (c :: cs) = c :: cs := by simp [trimStart, h]

theorem trimStart_cons_of_blank {c : Char} (cs : Text) (h : isBlank c = true) :
    trimStart (c :: cs) = trimStart cs := by simp [trimStart, h]

end SchemaDrift.Text
