import Whence.Decimal.Shortest

/-!
# How a decimal is laid out

A style says for which magnitudes digits are written in place, with zeros up to the point, and how
a number is written otherwise: a leading digit, the other digits after a point, and an exponent.
-/

namespace Whence.Decimal

structure Style where
  tie : Tie
  /-- The least exponent of the leading digit that is written in place; `none` sets no bound. -/
  placeFrom : Option Int
  /-- The greatest exponent of the leading digit that is written in place; `none` sets no bound. -/
  placeTo : Option Int
  /-- Whether a whole number keeps `.0`. -/
  wholePoint : Bool
  /-- What precedes the digits of a positive exponent. -/
  plus : String
  deriving Repr

namespace Style

def inPlace (style : Style) (exponent : Int) : Bool :=
  style.placeFrom.all (· ≤ exponent) && style.placeTo.all (exponent ≤ ·)

def zeros (count : Nat) : String :=
  String.ofList (List.replicate count '0')

def takeDigits (count : Nat) (digits : List Char) : String :=
  String.ofList (digits.take count)

def dropDigits (count : Nat) (digits : List Char) : String :=
  String.ofList (digits.drop count)

/-- `exponent` is that of the leading digit. -/
def placed (style : Style) (digits : List Char) (exponent : Int) : String :=
  if exponent < 0 then
    "0." ++ zeros (-exponent - 1).toNat ++ String.ofList digits
  else
    let whole := exponent.toNat + 1
    if digits.length ≤ whole then
      String.ofList digits ++ zeros (whole - digits.length) ++
        (if style.wholePoint then ".0" else "")
    else
      takeDigits whole digits ++ "." ++ dropDigits whole digits

def scientific (style : Style) (digits : List Char) (exponent : Int) : String :=
  let fraction := dropDigits 1 digits
  let sign := if exponent < 0 then "-" else style.plus
  takeDigits 1 digits ++ (if fraction.isEmpty then "" else "." ++ fraction) ++ "e" ++ sign ++
    toString exponent.natAbs

def layOut (style : Style) (multiple : Multiple) : String :=
  let digits := Nat.toDigits 10 multiple.count
  let exponent := multiple.power + digits.length - 1
  if style.inPlace exponent then style.placed digits exponent
  else style.scientific digits exponent

/-- The text of a positive number given by its interval. -/
def positive (style : Style) (interval : Interval) : String :=
  style.layOut (interval.shortest style.tie)

def zero (style : Style) : String :=
  if style.wholePoint then "0.0" else "0"

end Style

end Whence.Decimal
