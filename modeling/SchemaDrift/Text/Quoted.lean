import SchemaDrift.Text.Basic
import SchemaDrift.Text.Grapheme
import SchemaDrift.Text.Unprintable

namespace SchemaDrift.Text

/-!
# Quoted literals

A quoted literal of the generated sources stands between double quotes. Quotes, backslashes and
the controls that have a short escape are written with a backslash; other characters without a
glyph of their own are written by number.
-/

/-- The number of a character between braces, in lower-case hexadecimal. -/
def numbered (c : Char) : Text := "\\u\x7b" ++ Nat.toDigits 16 c.toNat ++ "\x7d"

def escape (c : Char) : Text :=
  if c = '\x00' then "\\0"
  else if c = '\t' then "\\t"
  else if c = '\n' then "\\n"
  else if c = '\r' then "\\r"
  else if c = '"' then "\\\""
  else if c = '\\' then "\\\\"
  else if graphemeExtend.has c.toNat || unprintable.has c.toNat then numbered c
  else [c]

def quote (t : Text) : Text := '"' :: t.flatMap escape ++ ['"']

@[simp] theorem quote_nil : quote [] = ['"', '"'] := rfl

end SchemaDrift.Text
