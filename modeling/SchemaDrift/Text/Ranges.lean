namespace SchemaDrift.Text

/-!
# Sets of code points

A property of characters is a list of closed ranges in increasing order. Membership stops at the
first range above the character.
-/

/-- Closed ranges of code points, lowest first. -/
abbrev Ranges := List (Nat × Nat)

namespace Ranges

/-- Whether the code point lies in one of the ranges, which are in increasing order. -/
def has : Ranges → Nat → Bool
  | [], _ => false
  | (low, high) :: rest, n => low ≤ n && (n ≤ high || has rest n)

@[simp] theorem has_nil (n : Nat) : Ranges.has [] n = false := rfl

theorem has_of_mem {low high n : Nat} (rest : Ranges) (hl : low ≤ n) (hh : n ≤ high) :
    Ranges.has ((low, high) :: rest) n = true := by
  simp [has, hl, hh]

end Ranges

end SchemaDrift.Text
