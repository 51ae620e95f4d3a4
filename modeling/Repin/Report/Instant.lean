/-!
# Instants

The time at which a run started is written as a date and a time of day without a zone, to the second:
`2024-01-02T03:04:05Z`.
-/
namespace Repin

-- A number of seconds since the start of 1970.
structure Instant where
  seconds : Nat
  deriving DecidableEq, Repr

namespace Instant

-- The days of the four centuries after which the calendar repeats.
def daysOfEra : Nat := 146097

-- The year, month and day of a number of days since the start of 1970. Years are counted from March
-- on, so that the day which only some years have is their last.
def date (days : Nat) : Nat × Nat × Nat :=
  let shifted := days + 719468
  let era := shifted / daysOfEra
  let day := shifted % daysOfEra
  let year := (day - day / 1460 + day / 36524 - day / 146096) / 365
  let dayOfYear := day - (365 * year + year / 4 - year / 100)
  let month := (5 * dayOfYear + 2) / 153
  let dayOfMonth := dayOfYear - (153 * month + 2) / 5 + 1
  let monthOfYear := if month < 10 then month + 3 else month - 9
  let calendarYear := year + 400 * era + if monthOfYear ≤ 2 then 1 else 0
  (calendarYear, monthOfYear, dayOfMonth)

-- A number with at least so many digits.
def digits (width n : Nat) : String :=
  let ds := Nat.toDigits 10 n
  String.ofList (List.replicate (width - ds.length) '0' ++ ds)

def render (t : Instant) : String :=
  let (year, month, day) := date (t.seconds / 86400)
  let second := t.seconds % 86400
  digits 4 year ++ "-" ++ digits 2 month ++ "-" ++ digits 2 day ++ "T" ++ digits 2 (second / 3600)
    ++ ":" ++ digits 2 (second / 60 % 60) ++ ":" ++ digits 2 (second % 60) ++ "Z"

example : render ⟨1704164645⟩ = "2024-01-02T03:04:05Z" := by decide

example : render ⟨951782400⟩ = "2000-02-29T00:00:00Z" := by decide

end Instant
end Repin
