import LocalRecovery.Text.Padding

set_option autoImplicit false

/-! # Elapsed time as text

A duration is written in the largest unit among seconds, milliseconds, microseconds and
nanoseconds of which it holds at least one, with two decimal places. The unit is chosen before
rounding; a half goes to the even neighbour.
-/

namespace LocalRecovery

/-- A span of time in seconds and a further number of nanoseconds. -/
structure Duration where
  seconds : Nat := 0
  nanoseconds : Nat := 0
  deriving DecidableEq

namespace Duration

/-- The whole span in nanoseconds. -/
def total (d : Duration) : Nat :=
  d.seconds * 1000000000 + d.nanoseconds

/-- `num / den` to the nearest whole number, a half to the even one. -/
def roundHalfEven (num den : Nat) : Nat :=
  let q := num / den
  let r := num % den
  if 2 * r < den then q
  else if den < 2 * r then q + 1
  else if q % 2 = 0 then q else q + 1

/-- The name and the length in nanoseconds of the unit in which a span of `n` nanoseconds is
written. -/
def unitFor (n : Nat) : String × Nat :=
  if 1000000000 ≤ n then ("s", 1000000000)
  else if 1000000 ≤ n then ("ms", 1000000)
  else if 1000 ≤ n then ("µs", 1000)
  else ("ns", 1)

/-- The span with two places in its unit. -/
def text (d : Duration) : String :=
  let (name, length) := unitFor d.total
  let hundredths := roundHalfEven (d.total * 100) length
  toString (hundredths / 100) ++ "." ++ Text.decimal 2 (hundredths % 100) ++ name

end Duration

end LocalRecovery
