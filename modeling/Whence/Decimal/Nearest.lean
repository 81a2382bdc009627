import Whence.Decimal.Shortest

/-!
# The binary number nearest to a decimal

The magnitudes of doubles are numbered in ascending order by their bit patterns.  A positive number
is measured in units of the last place of the doubles around it and rounded to a whole number of
units, a half to the even neighbour.  Rounding up past the last of them arrives at the pattern of
the next larger unit, and from the greatest finite double at that of infinity.
-/

namespace Whence.Decimal

/-- The quotient rounded to the nearest whole number, a half to the even neighbour. -/
def roundedQuotient (numerator denominator : Nat) : Nat :=
  let quotient := numerator / denominator
  match compare (2 * (numerator % denominator)) denominator with
  | .lt => quotient
  | .eq => quotient + quotient % 2
  | .gt => quotient + 1

structure Fraction where
  numerator : Nat
  denominator : Nat
  deriving DecidableEq, Repr

namespace Fraction

/-- Measured in units of `2 ^ place`. -/
def inUnits (fraction : Fraction) (place : Int) : Fraction where
  numerator := fraction.numerator * Nat.pow 2 (-place).toNat
  denominator := fraction.denominator * Nat.pow 2 place.toNat

/-- The exponent of the last place: below `2 ^ 53` units make up the fraction, and at least
`2 ^ 52` unless the place is the least there is. -/
def lastPlace (fraction : Fraction) : Int :=
  let magnitude : Int := fraction.numerator.log2 - fraction.denominator.log2
  let place : Int := max (magnitude - 53) (-1074)
  let units := fraction.inUnits place
  if units.numerator / units.denominator < 0x20000000000000 then place else place + 1

def infinitePattern : Nat := 0x7FF0000000000000

/-- The bit pattern of the double nearest to a positive fraction. -/
def pattern (fraction : Fraction) : Nat :=
  let place := fraction.lastPlace
  let units := fraction.inUnits place
  min ((place + 1074).toNat * 0x10000000000000 +
    roundedQuotient units.numerator units.denominator) infinitePattern

end Fraction

/-- The bit pattern of the double nearest to a multiple.  Those of four hundred places before or
after the point are far outside the range. -/
def Multiple.pattern (multiple : Multiple) : Nat :=
  let places := multiple.power + (Nat.toDigits 10 multiple.count).length
  if multiple.count = 0 ∨ places < -400 then 0
  else if 400 < places then Fraction.infinitePattern
  else
    Fraction.pattern
      ⟨multiple.count * Nat.pow 10 multiple.power.toNat, Nat.pow 10 (-multiple.power).toNat⟩

end Whence.Decimal
