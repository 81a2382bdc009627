/-!
# The shortest decimal of a binary number

A positive binary number `significand * 2 ^ exponent` is read back from every real that lies closer
to it than to its neighbours.  Among the multiples of a power of ten in that interval, those of the
largest power have the fewest digits; of these the one nearest to the number is taken.  Everything
is exact: a multiple `count * 10 ^ power` is compared with the ends of the interval after both
sides are cleared of denominators.
-/

namespace Whence.Decimal

/-- Which of two equally near multiples is taken. -/
inductive Tie where
  | upward
  | even
  deriving DecidableEq, Repr

/-- The multiple `count * 10 ^ power` of a power of ten. -/
structure Multiple where
  count : Nat
  power : Int
  deriving DecidableEq, Repr

/-- The reals that read back as one binary number.  The ends `low` and `high` and the number
itself, `value`, are counted in units of `2 ^ scale`. -/
structure Interval where
  low : Nat
  value : Nat
  high : Nat
  scale : Int
  /-- Whether the ends belong to the interval. -/
  closed : Bool
  deriving DecidableEq, Repr

namespace Interval

/-- The neighbours are half a unit of the last place away, except that below a power of two the
lower one is only a quarter away.  A tie reads back as the even significand. -/
def ofBinary (significand : Nat) (exponent : Int) (narrowBelow : Bool) : Interval where
  low := 4 * significand - (if narrowBelow then 1 else 2)
  value := 4 * significand
  high := 4 * significand + 2
  scale := exponent - 2
  closed := significand % 2 == 0

/-- The factor that turns a count of units into a natural number comparable with multiples of
`10 ^ power`. -/
def unitFactor (interval : Interval) (power : Int) : Nat :=
  Nat.pow 2 interval.scale.toNat * Nat.pow 10 (-power).toNat

/-- The factor that turns a count of multiples of `10 ^ power` into the same measure. -/
def gridFactor (interval : Interval) (power : Int) : Nat :=
  Nat.pow 10 power.toNat * Nat.pow 2 (-interval.scale).toNat

def contains (interval : Interval) (multiple : Multiple) : Bool :=
  let unit := interval.unitFactor multiple.power
  let point := multiple.count * interval.gridFactor multiple.power
  if interval.closed then interval.low * unit ≤ point && point ≤ interval.high * unit
  else interval.low * unit < point && point < interval.high * unit

/-- The multiple of `10 ^ power` in the interval that lies nearest to its value. -/
def nearest? (interval : Interval) (tie : Tie) (power : Int) : Option Multiple :=
  let grid := interval.gridFactor power
  let exact := interval.value * interval.unitFactor power
  let below : Multiple := ⟨exact / grid, power⟩
  let above : Multiple := ⟨exact / grid + 1, power⟩
  match interval.contains below, interval.contains above with
  | false, false => none
  | true, false => some below
  | false, true => some above
  | true, true =>
    match compare (2 * (exact % grid)) grid, tie with
    | .lt, _ => some below
    | .gt, _ => some above
    | .eq, .upward => some above
    | .eq, .even => some (if below.count % 2 == 0 then below else above)

/-- A power of ten above the whole interval: `2 ^ bits` is, and `30103 / 100000` exceeds the
decimal logarithm of two. -/
def powerAbove (interval : Interval) : Int :=
  let bits : Int := interval.high.log2 + 1 + interval.scale
  bits * 30103 / 100000 + 1

/-- Tries `steps` powers of ten from `power` downward. -/
def search (interval : Interval) (tie : Tie) : Nat → Int → Option Multiple
  | 0, _ => none
  | steps + 1, power =>
    (interval.nearest? tie power).orElse fun _ ↦ interval.search tie steps (power - 1)

/-- From a power above the interval, seventeen digits lie less than thirty powers down; the value
itself is a multiple of a small enough power and stands in if the search should end early. -/
def shortest (interval : Interval) (tie : Tie) : Multiple :=
  (interval.search tie 30 interval.powerAbove).getD
    ⟨interval.value * Nat.pow 2 interval.scale.toNat * Nat.pow 5 (-interval.scale).toNat,
      min interval.scale 0⟩

end Interval

end Whence.Decimal
