import SchemaDrift.Text.Decimal

namespace SchemaDrift.Stamp

/-!
# Time stamps

A migration file is named for the time at which it was made. Times are seconds from the start of the
year 1970, and dates are those of the Gregorian calendar in both directions.
-/

structure Date where
  year : Int
  month : Nat
  day : Nat
  deriving DecidableEq, Repr

/-- The date of a day, counted from the start of the year 1970. Years are taken to start in March,
so that the leap day is their last day. -/
def Date.ofDays (days : Int) : Date :=
  let shifted := days + 719468
  let era := shifted / 146097
  let dayOfEra := shifted % 146097
  let yearOfEra := (dayOfEra - dayOfEra / 1460 + dayOfEra / 36524 - dayOfEra / 146096) / 365
  let dayOfYear := dayOfEra - (365 * yearOfEra + yearOfEra / 4 - yearOfEra / 100)
  let fromMarch := (5 * dayOfYear + 2) / 153
  let month := if fromMarch < 10 then fromMarch + 3 else fromMarch - 9
  { year := yearOfEra + era * 400 + (if month ≤ 2 then 1 else 0)
    month := month.toNat
    day := (dayOfYear - (153 * fromMarch + 2) / 5 + 1).toNat }

/-- A year has four digits, and a sign if it is not among the first ten thousand. -/
def year (y : Int) : Text :=
  let digits := Text.padZero 4 (Text.ofNat y.natAbs)
  if y < 0 then '-' :: digits else if 9999 < y then '+' :: digits else digits

def twoDigits (n : Nat) : Text := Text.padZero 2 (Text.ofNat n)

/-- Whether the year can be handled at all. -/
def isInRange (y : Int) : Bool := -262143 ≤ y && y ≤ 262142

/-- The date and the time of day, each in digits. -/
def ofSeconds? (seconds : Int) : Option Text :=
  let date := Date.ofDays (seconds / 86400)
  let time := (seconds % 86400).toNat
  if isInRange date.year then
    some (year date.year ++ twoDigits date.month ++ twoDigits date.day ++ "_" ++
      twoDigits (time / 3600) ++ twoDigits (time / 60 % 60) ++ twoDigits (time % 60))
  else none

def migrationFile (stamp : Text) : Text := stamp ++ "_sync.surql"

example : ofSeconds? 1706715900 = some ("20240131_154500" : Text) := by decide

example : ofSeconds? (-62167219201) = some ("-00011231_235959" : Text) := by decide

end SchemaDrift.Stamp
