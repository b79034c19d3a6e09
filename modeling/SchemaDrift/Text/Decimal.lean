import SchemaDrift.Text.Basic

namespace SchemaDrift.Text

/-!
# Decimal numbers

Numbers are written without leading zeros, or padded with zeros to a width. A reader takes an
optional plus sign and any number of leading zeros.
-/

def ofNat (n : Nat) : Text := Nat.toDigits 10 n

/-- The text with zeros in front, up to the given width. -/
def padZero (width : Nat) (t : Text) : Text := List.replicate (width - t.length) '0' ++ t

/-- The text with spaces in front, up to the given width. -/
def padStart (width : Nat) (t : Text) : Text := List.replicate (width - t.length) ' ' ++ t

/-- The text followed by spaces, up to the given width. -/
def padEnd (width : Nat) (t : Text) : Text := t ++ List.replicate (width - t.length) ' '

/-- The value of a text of decimal digits, read after the digits that gave `value`. -/
def digitsValue (value : Nat) : Text → Option Nat
  | [] => some value
  | c :: cs => if c.isDigit then digitsValue (10 * value + (c.toNat - '0'.toNat)) cs else none

/-- Reads a number below the bound: at least one digit, with an optional plus sign in front. -/
def toNatBelow? (bound : Nat) (t : Text) : Option Nat :=
  let digits := match t with
    | '+' :: rest => rest
    | _ => t
  if digits.isEmpty then none
  else (digitsValue 0 digits).filter (· < bound)

theorem digitsValue_append (value : Nat) (a b : Text) :
    digitsValue value (a ++ b) = (digitsValue value a).bind (digitsValue · b) := by
  induction a generalizing value with
  | nil => rfl
  | cons c cs ih => by_cases h : c.isDigit <;> simp [digitsValue, h, ih]

theorem digitsValue_digitChar {d : Nat} (value : Nat) (h : d < 10) :
    digitsValue value [Nat.digitChar d] = some (10 * value + d) := by
  match d, h with
  | 0, _ | 1, _ | 2, _ | 3, _ | 4, _ | 5, _ | 6, _ | 7, _ | 8, _ | 9, _ => rfl

/-- The digits of a number have its value. -/
theorem digitsValue_ofNat (n : Nat) : digitsValue 0 (ofNat n) = some n := by
  induction n using Nat.strongRecOn with
  | ind n ih =>
    by_cases h : n < 10
    · rw [ofNat, Nat.toDigits_of_lt_base h, digitsValue_digitChar 0 h]
      simp
    · have hlast : n % 10 < 10 := Nat.mod_lt n (by decide)
      have hsplit := Nat.toDigits_append_toDigits (b := 10) (n := n / 10) (d := n % 10)
        (by decide) (by omega) hlast
      rw [Nat.toDigits_of_lt_base hlast, Nat.div_add_mod] at hsplit
      have hfront : digitsValue 0 (Nat.toDigits 10 (n / 10)) = some (n / 10) := ih _ (by omega)
      rw [ofNat, ← hsplit, digitsValue_append, hfront, Option.bind_some,
        digitsValue_digitChar _ hlast, Nat.div_add_mod]

/-- A number below the bound reads back. -/
theorem toNatBelow?_ofNat {bound n : Nat} (h : n < bound) :
    toNatBelow? bound (ofNat n) = some n := by
  have hv := digitsValue_ofNat n
  have hne : ofNat n ≠ [] := Nat.toDigits_ne_nil
  unfold toNatBelow?
  split
  · rename_i rest he
    rw [he] at hv
    simp [digitsValue] at hv
  · simp [hv, hne, h]

example : toNatBelow? (2 ^ 64) "18446744073709551615" = some 18446744073709551615 := by decide

example : toNatBelow? (2 ^ 64) "18446744073709551616" = none := by decide

example : toNatBelow? (2 ^ 64) "+007" = some 7 := by decide

example : toNatBelow? (2 ^ 64) "+" = none := by decide

end SchemaDrift.Text
