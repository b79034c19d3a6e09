import SchemaDrift.Json.Basic

namespace SchemaDrift.Json

/-!
# Writing a JSON text

A value is written on one line without blanks, or over several lines with two spaces for each level.
-/

def escape (c : Char) : Text :=
  if c = '"' then "\\\""
  else if c = '\\' then "\\\\"
  else if c = '\n' then "\\n"
  else if c = '\r' then "\\r"
  else if c = '\t' then "\\t"
  else if c = '\x08' then "\\b"
  else if c = '\x0c' then "\\f"
  else if c.toNat < 0x20 then "\\u" ++ Text.padZero 4 (Nat.toDigits 16 c.toNat)
  else [c]

def quote (t : Text) : Text := '"' :: t.flatMap escape ++ ['"']

/-- A value without parts. -/
def scalar : Json → Text
  | .null => "null"
  | .bool true => "true"
  | .bool false => "false"
  | .number literal => literal
  | .text value => quote value
  | _ => "null"

mutual

def compact : Json → Text
  | .list items => "[" ++ compactItems items ++ "]"
  | .object members => "\x7b" ++ compactMembers members ++ "\x7d"
  | value => value.scalar

def compactItems : List Json → Text
  | [] => []
  | [item] => item.compact
  | item :: rest => item.compact ++ "," ++ compactItems rest

def compactMembers : List (Text × Json) → Text
  | [] => []
  | [(key, value)] => quote key ++ ":" ++ value.compact
  | (key, value) :: rest => quote key ++ ":" ++ value.compact ++ "," ++ compactMembers rest

end

def newline (level : Nat) : Text := '\n' :: List.replicate (2 * level) ' '

mutual

/-- The value over several lines; `level` is that of the value. -/
def indented (level : Nat) : Json → Text
  | .list [] => "[]"
  | .list items => "[" ++ indentedItems (level + 1) items ++ newline level ++ "]"
  | .object [] => "\x7b\x7d"
  | .object members => "\x7b" ++ indentedMembers (level + 1) members ++ newline level ++ "\x7d"
  | value => value.scalar

def indentedItems (level : Nat) : List Json → Text
  | [] => []
  | [item] => newline level ++ item.indented level
  | item :: rest => newline level ++ item.indented level ++ "," ++ indentedItems level rest

def indentedMembers (level : Nat) : List (Text × Json) → Text
  | [] => []
  | [(key, value)] => newline level ++ quote key ++ ": " ++ value.indented level
  | (key, value) :: rest =>
    newline level ++ quote key ++ ": " ++ value.indented level ++ "," ++
      indentedMembers level rest

end

def pretty (value : Json) : Text := value.indented 0

end SchemaDrift.Json
