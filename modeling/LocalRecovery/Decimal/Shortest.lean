import LocalRecovery.Decimal.Binary64

set_option autoImplicit false

/-! # The shortest decimal that reads back

A finite number `x` owns the reals that round to it: an interval around `x` that reaches half way
to each neighbour, ends included when the significand is even. `Binary64.shortest` gives the
decimal in that interval with the fewest digits, and among those the one nearest to `x`; of two
that are equally near it is the larger.

All arithmetic is exact. For `n = 1, 2, …` digits the two neighbours of `x` on the grid of
`n`-digit decimals are tried, and the first grid with a hit decides.
-/

namespace LocalRecovery

/-- The real number `digits * 10 ^ power`. -/
structure Decimal where
  digits : Nat
  power : Int
  deriving DecidableEq

namespace Decimal

/-- How many decimal digits `n` has. -/
def digitCount (n : Nat) : Nat :=
  (Nat.toDigits 10 n).length

/-- A positive rational `value / unit` with the ends `low / unit` and `high / unit` of the interval
that belongs to it. -/
structure Interval where
  low : Nat
  value : Nat
  high : Nat
  unit : Nat
  closed : Bool

namespace Interval

/-- The same interval, measured in steps of `10 ^ power`. -/
def inSteps (i : Interval) (power : Int) : Interval :=
  if 0 ≤ power then { i with unit := i.unit * Nat.pow 10 power.toNat }
  else
    let factor := Nat.pow 10 (-power).toNat
    { i with low := i.low * factor, value := i.value * factor, high := i.high * factor }

/-- Does the interval contain the whole number `d`? -/
def contains (i : Interval) (d : Nat) : Bool :=
  if i.closed then decide (i.low ≤ d * i.unit) && decide (d * i.unit ≤ i.high)
  else decide (i.low < d * i.unit) && decide (d * i.unit < i.high)

/-- The least `k` with `value / unit < 10 ^ k`. -/
def magnitude (i : Interval) : Int :=
  if i.unit ≤ i.value then digitCount (i.value / i.unit)
  else 1 - (digitCount ((i.unit - 1) / i.value) : Int)

/-- The whole number in the interval among the two next to the value: the nearer one, the larger
one of two equally near. -/
def nearest? (i : Interval) : Option Nat :=
  let below := i.value / i.unit
  let above := below + 1
  let upNearer := decide (i.unit ≤ 2 * (i.value % i.unit))
  match i.contains below, i.contains above with
  | true, true => some (if upNearer then above else below)
  | true, false => some below
  | false, true => some above
  | false, false => none

/-- The decimal with `n` digits that the interval contains, if any. -/
def withDigits? (i : Interval) (n : Nat) : Option Decimal :=
  let power := i.magnitude - n
  (i.inSteps power).nearest?.map fun d => ⟨d, power⟩

/-- The first grid with a hit decides. Seventeen digits tell any two numbers apart. -/
def shortest (i : Interval) : Decimal :=
  ((List.range 17).findSome? fun n => i.withDigits? (n + 1)).getD ⟨0, 0⟩

end Interval

/-- The same number without final zeros among its digits. -/
def trimZeros (d : Decimal) : Decimal :=
  if d.digits ≠ 0 ∧ d.digits % 10 = 0 then trimZeros ⟨d.digits / 10, d.power + 1⟩ else d
termination_by d.digits
decreasing_by
  have : d.digits ≠ 0 := by omega
  exact Nat.div_lt_self (Nat.pos_of_ne_zero this) (by omega)

end Decimal

namespace Binary64

/-- The reals that round to the magnitude of a finite number other than zero. Everything is
measured in quarters of the last place, so that the half way points are whole: below a power of
two the numbers are twice as dense, and the lower end is only one quarter away. -/
def interval (x : Binary64) : Decimal.Interval :=
  let m := x.significand
  let gap := if x.fractionBits = 0 ∧ 1 < x.exponentBits then 1 else 2
  let q := x.scale - 2
  let factor := Nat.pow 2 q.toNat
  { low := (4 * m - gap) * factor
    value := 4 * m * factor
    high := (4 * m + 2) * factor
    unit := Nat.pow 2 (-q).toNat
    closed := m % 2 == 0 }

/-- The shortest decimal that reads back as the magnitude of a finite number other than zero. -/
def shortest (x : Binary64) : Decimal :=
  x.interval.shortest.trimZeros

end Binary64

end LocalRecovery
