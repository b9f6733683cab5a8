import Ripple.Text.Digits

/-!
# Times as Text

A number of milliseconds since the beginning of 1970 as a date and a time of
day. Days are counted in eras of 400 years that begin in March, so that the
day that may be missing comes last.
-/

namespace Ripple

/-- The year, month and day of a day, counted from the beginning of 1970. -/
def dateOfDay (day : Int) : Int × Int × Int :=
  let shifted := day + 719468
  let era := Int.fdiv shifted 146097
  let dayOfEra := shifted - era * 146097
  let yearOfEra := (dayOfEra - dayOfEra / 1460 + dayOfEra / 36524 - dayOfEra / 146096) / 365
  let dayOfYear := dayOfEra - (365 * yearOfEra + yearOfEra / 4 - yearOfEra / 100)
  let shiftedMonth := (5 * dayOfYear + 2) / 153
  let dayOfMonth := dayOfYear - (153 * shiftedMonth + 2) / 5 + 1
  let month := if shiftedMonth < 10 then shiftedMonth + 3 else shiftedMonth - 9
  let year := yearOfEra + era * 400
  (if month ≤ 2 then year + 1 else year, month, dayOfMonth)

def momentText (time : Int64) : String :=
  let ms := time.toInt
  let day := Int.fdiv ms 86400000
  let rest := (ms - day * 86400000).toNat
  let (year, month, dayOfMonth) := dateOfDay day
  let two (n : Nat) : String := paddedDigits 2 n
  let fraction := if rest % 1000 = 0 then "" else "." ++ paddedDigits 3 (rest % 1000)
  paddedDigits 4 year.toNat ++ "-" ++ two month.toNat ++ "-" ++ two dayOfMonth.toNat ++ "T" ++
    two (rest / 3600000) ++ ":" ++ two (rest / 60000 % 60) ++ ":" ++ two (rest / 1000 % 60) ++
    fraction ++ "+00:00"

end Ripple
