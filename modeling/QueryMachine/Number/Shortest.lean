import QueryMachine.Number.Binary64

/-!
# The shortest decimal that reads back

A finite, positive `m · 2 ^ q` is the nearest double of every real number in an interval
around it. `Decimal.shortest` picks, among the decimals of that interval with the fewest
digits, the one nearest to the number itself; of two that are equally near, the larger.

All comparisons are made on natural numbers: the number is `numerator / denominator`, and the
interval's ends are the midpoints to the neighbouring doubles.
-/

namespace QueryMachine

/-- The positive decimal `digits · 10 ^ exponent`. -/
structure Decimal where
  digits : Nat
  exponent : Int
  deriving DecidableEq, Repr, Inhabited

/-- A positive rational with the interval of reals that round to it. The interval reaches
from `(value - below) / unit` to `(value + above) / unit`. -/
structure RoundingInterval where
  value : Nat
  below : Nat
  above : Nat
  unit : Nat
  closed : Bool
  deriving Repr

namespace RoundingInterval

/-- The interval of `m · 2 ^ q`, in quarters of the last place. A power of two has a nearer
neighbour below it than above, so there the lower end is a quarter away instead of a half.
The ends belong to the interval exactly when `m` is even, because ties round to even. -/
def of (m : Nat) (q : Int) (narrowBelow : Bool) : RoundingInterval :=
  let up := Nat.pow 2 (q - 2).toNat
  { value := 4 * m * up
    below := (if narrowBelow then 1 else 2) * up
    above := 2 * up
    unit := Nat.pow 2 (2 - q).toNat
    closed := m % 2 == 0 }

end RoundingInterval

/-- The number of decimal digits of a natural number, at least one. A large number loses many
digits at a time. -/
def decimalLength (n : Nat) : Nat :=
  if n < 10 then 1
  else if n < Nat.pow 10 32 then decimalLength (n / 10) + 1
  else decimalLength (n / Nat.pow 10 32) + 32
termination_by n
decreasing_by all_goals exact Nat.div_lt_self (by omega) (by decide)

/-- The `k` with `10 ^ (k - 1) ≤ num / den < 10 ^ k`, for a positive rational. -/
def decimalMagnitude (num den : Nat) : Int :=
  if den ≤ num then decimalLength (num / den) else 1 - (decimalLength ((den - 1) / num) : Int)

namespace Decimal

/-- Drop trailing zeros into the exponent. -/
def normalize (d : Decimal) : Decimal :=
  if h : d.digits ≠ 0 ∧ d.digits % 10 = 0 then
    normalize ⟨d.digits / 10, d.exponent + 1⟩
  else d
termination_by d.digits
decreasing_by
  have := h.1
  omega

/-- The candidates on the grid of multiples of `10 ^ exponent`: the two neighbours of the
number, of which only those inside the interval count. The nearer one is taken, and the upper
one when both are equally near. -/
def onGrid? (r : RoundingInterval) (exponent : Int) : Option Decimal :=
  -- the number is `lower + rest / step` steps of the grid
  let scale := Nat.pow 10 (-exponent).toNat
  let step := r.unit * Nat.pow 10 exponent.toNat
  let lower := r.value * scale / step
  let rest := r.value * scale % step
  let reaches (far near : Nat) : Bool := if r.closed then far ≤ near else far < near
  let lowerInside := 0 < lower && reaches rest (r.below * scale)
  let upperInside := reaches (step - rest) (r.above * scale)
  match lowerInside, upperInside with
  | true, true => some ⟨if 2 * rest < step then lower else lower + 1, exponent⟩
  | true, false => some ⟨lower, exponent⟩
  | false, true => some ⟨lower + 1, exponent⟩
  | false, false => none

/-- The least number of significant digits above `low` whose grid has a candidate, given that
the one of `high` digits has. A grid holds every coarser one, so a candidate stays one when
digits are added, and the range can be halved. -/
def leastDigits (r : RoundingInterval) (magnitude : Int) (low high : Nat) : Nat :=
  if low + 1 < high then
    let middle := (low + high) / 2
    if (onGrid? r (magnitude - middle)).isSome then leastDigits r magnitude low middle
    else leastDigits r magnitude middle high
  else high
termination_by high - low

/-- The shortest decimal that reads back as a finite number's magnitude; zero for zero.
Seventeen digits always suffice for a double. -/
def shortest (x : Binary64) : Decimal :=
  if x.significand = 0 then ⟨0, 0⟩
  else
    -- below a power of two the doubles lie closer, except at the smallest ones
    let narrow := x.fractionField == 0 && decide (1 < x.exponentField)
    let r := RoundingInterval.of x.significand x.exponent narrow
    let magnitude := decimalMagnitude r.value r.unit
    match onGrid? r (magnitude - leastDigits r magnitude 0 17) with
    | some d => d.normalize
    | none => ⟨0, 0⟩

end Decimal

end QueryMachine
