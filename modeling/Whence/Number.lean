import Whence.Decimal.Nearest
import Whence.Decimal.Style

/-!
# Numbers

A number is a double, kept as its bit pattern so that two numbers can be told apart.  Arithmetic
and the comparisons of programs are those of the double.  Knowledge about numbers is compared by a
coarser rule: all undefined numbers count as one, and so do the two zeros.
-/

namespace Whence

structure Number where
  bits : UInt64
  deriving DecidableEq, Hashable, Repr, Inhabited

namespace Number

def ofFloat (value : Float) : Number := ⟨value.toBits⟩

def toFloat (number : Number) : Float := Float.ofBits number.bits

/-- Gives a sign to the bit pattern of a magnitude. -/
def ofPattern (negative : Bool) (pattern : Nat) : Number :=
  ⟨(if negative then 0x8000000000000000 else 0) ||| UInt64.ofNat pattern⟩

/-- The number nearest to a decimal with its sign. -/
def ofDecimal (negative : Bool) (decimal : Decimal.Multiple) : Number :=
  ofPattern negative decimal.pattern

def infinity (negative : Bool) : Number := ofPattern negative Decimal.Fraction.infinitePattern

/-- An undefined number, of which there are many. -/
def undefined (negative : Bool) : Number := ofPattern negative 0x7FF8000000000000

def ofNat (value : Nat) : Number := ofDecimal false ⟨value, 0⟩

instance (value : Nat) : OfNat Number value := ⟨ofNat value⟩

instance : OfScientific Number where
  ofScientific mantissa negative exponent :=
    ofDecimal false ⟨mantissa, if negative then -exponent else exponent⟩

def isNegative (number : Number) : Bool := number.bits >>> 63 == 1

/-- The biased exponent; the greatest one marks infinities and undefined numbers. -/
def biased (number : Number) : Nat := ((number.bits >>> 52) &&& 0x7FF).toNat

def fraction (number : Number) : Nat := (number.bits &&& 0xFFFFFFFFFFFFF).toNat

def isUndefined (number : Number) : Bool := number.biased == 0x7FF && number.fraction != 0

def isInfinite (number : Number) : Bool := number.biased == 0x7FF && number.fraction == 0

def isZero (number : Number) : Bool := number.biased == 0 && number.fraction == 0

/-- The reals that read back as the magnitude of a finite number other than zero. -/
def interval (number : Number) : Decimal.Interval :=
  if number.biased == 0 then
    Decimal.Interval.ofBinary number.fraction (-1074) false
  else
    Decimal.Interval.ofBinary (number.fraction + 0x10000000000000) (number.biased - 1075)
      (number.fraction == 0 && 1 < number.biased)

/-- One representative for all undefined numbers and one for the two zeros. -/
def canonical (number : Number) : Number :=
  if number.isUndefined then undefined false
  else if number.isZero then ⟨0⟩
  else number

def same (left right : Number) : Bool := left.canonical == right.canonical

/-- The text of a number that is not undefined, in a given style. -/
def styled (style : Decimal.Style) (number : Number) : String :=
  let sign := if number.isNegative then "-" else ""
  if number.isInfinite then sign ++ "inf"
  else if number.isZero then sign ++ style.zero
  else sign ++ style.positive number.interval

/-- Values shown to the reader have every digit in place and no point after a whole number. -/
def plainStyle : Decimal.Style where
  tie := .upward
  placeFrom := none
  placeTo := none
  wholePoint := false
  plus := ""

/-- Reports of a conflict mark whole numbers with `.0` and use an exponent for numbers below
`10 ^ -4` or from `10 ^ 16` on. -/
def reportStyle : Decimal.Style where
  tie := .upward
  placeFrom := some (-4)
  placeTo := some 15
  wholePoint := true
  plus := ""

/-- Documents mark whole numbers with `.0` and use a signed exponent below `10 ^ -5` and from
`10 ^ 16` on. -/
def documentStyle : Decimal.Style where
  tie := .even
  placeFrom := some (-5)
  placeTo := some 15
  wholePoint := true
  plus := "+"

def plain (number : Number) : String :=
  if number.isUndefined then "NaN" else number.styled plainStyle

def report (number : Number) : String :=
  if number.isUndefined then "NaN" else number.styled reportStyle

/-- Documents have no way to write an undefined or infinite number. -/
def document (number : Number) : String :=
  if number.isUndefined || number.isInfinite then "null" else number.styled documentStyle

end Number

end Whence
