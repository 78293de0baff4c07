import TypedClient.Text.Lines

/-!
# The time as text

A moment is a number of seconds since the start of 1970, all days being equally
long. Its date follows the calendar in which every fourth year has a day more,
but of the full centuries only every fourth.
-/

namespace TypedClient.Command

/-- How many days four centuries have. -/
def daysInEra : Nat := 146097

/-- How many days lie between the first of March of the year 0 and the start
of 1970. -/
def daysBeforeEpoch : Nat := 719468

/-- Year, month and day of a day, counted from the start of 1970. Years are
counted from March on, so that the day that some years have more is their last
one. -/
def dateOfDay (day : Nat) : Nat × Nat × Nat :=
  let shifted := day + daysBeforeEpoch
  let era := shifted / daysInEra
  let dayOfEra := shifted % daysInEra
  let yearOfEra := (dayOfEra - dayOfEra / 1460 + dayOfEra / 36524 - dayOfEra / 146096) / 365
  let dayOfYear := dayOfEra - (365 * yearOfEra + yearOfEra / 4 - yearOfEra / 100)
  let month := (5 * dayOfYear + 2) / 153
  let year := yearOfEra + era * 400
  (if month < 10 then year else year + 1, if month < 10 then month + 3 else month - 9,
    dayOfYear - (153 * month + 2) / 5 + 1)

/-- A number with zeros in front to make it at least `width` digits long. -/
def padded (width n : Nat) : String :=
  let digits := toString n
  String.ofList (List.replicate (width - digits.length) '0') ++ digits

/-- A moment as date and time. -/
def timestamp (seconds : Nat) : String :=
  let (year, month, day) := dateOfDay (seconds / 86400)
  let rest := seconds % 86400
  padded 4 year ++ "-" ++ padded 2 month ++ "-" ++ padded 2 day ++ "T" ++
    padded 2 (rest / 3600) ++ ":" ++ padded 2 (rest / 60 % 60) ++ ":" ++ padded 2 (rest % 60) ++ "Z"

end TypedClient.Command
