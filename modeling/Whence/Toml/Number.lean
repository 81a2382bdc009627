import Whence.Document
import Whence.Toml.Reader

/-!
# Numbers and truth values of a settings file

Integers are written in one of four bases and have 64 bits.  Single underscores may separate
digits.  A decimal that rounds to positive infinity is refused.
-/

namespace Whence.Toml

def digit? (base : Nat) (character : Char) : Option Nat :=
  let value :=
    if character.isDigit then character.toNat - '0'.toNat
    else if 'a' ≤ character ∧ character ≤ 'f' then character.toNat - 'a'.toNat + 10
    else if 'A' ≤ character ∧ character ≤ 'F' then character.toNat - 'A'.toNat + 10
    else base
  if value < base then some value else none

/-- Appends digits to a value. -/
def appendDigits? (base : Nat) (value : Nat) : List Char → Option Nat
  | [] => some value
  | '_' :: character :: rest => do
    appendDigits? base (value * base + (← digit? base character)) rest
  | character :: rest => do
    appendDigits? base (value * base + (← digit? base character)) rest

def numeral? (base : Nat) : List Char → Option Nat
  | [] => none
  | character :: rest => do appendDigits? base (← digit? base character) rest

/-- A decimal numeral without a superfluous zero in front. -/
def decimal? : List Char → Option Nat
  | ['0'] => some 0
  | '0' :: _ => none
  | text => numeral? 10 text

def signed : List Char → Bool × List Char
  | '-' :: rest => (true, rest)
  | '+' :: rest => (false, rest)
  | text => (false, text)

def negateIf (negative : Bool) (value : Nat) : Int := if negative then -(value : Int) else value

def magnitude? : List Char → Option Int
  | '0' :: 'x' :: rest => Int.ofNat <$> numeral? 16 rest
  | '0' :: 'o' :: rest => Int.ofNat <$> numeral? 8 rest
  | '0' :: 'b' :: rest => Int.ofNat <$> numeral? 2 rest
  | text =>
    let (negative, digits) := signed text
    negateIf negative <$> decimal? digits

/-- An integer of 64 bits with its sign. -/
def integer? (text : List Char) : Option Int := do
  let value ← magnitude? text
  if Int64.minValue.toInt ≤ value ∧ value ≤ Int64.maxValue.toInt then some value else none

def exponent? : List Char → Option Int
  | [] => some 0
  | mark :: rest => do
    if mark != 'e' && mark != 'E' then none
    let (negative, digits) := signed rest
    negateIf negative <$> numeral? 10 digits

/-- A number without a sign that has a fraction, an exponent or both. -/
def fractional? (text : List Char) : Option Decimal.Multiple := do
  let isPart (character : Char) : Bool := character.isDigit || character == '_'
  let (whole, rest) := (text.takeWhile isPart, text.dropWhile isPart)
  let value ← decimal? whole
  match rest with
  | [] => none
  | '.' :: rest =>
    let (places, rest) := (rest.takeWhile isPart, rest.dropWhile isPart)
    let fraction ← numeral? 10 places
    let count := (places.filter Char.isDigit).length
    return ⟨value * Nat.pow 10 count + fraction, (← exponent? rest) - count⟩
  | rest => return ⟨value, ← exponent? rest⟩

def number? (text : List Char) : Option Number := do
  let (negative, text) := signed text
  if text = ['i', 'n', 'f'] then return .infinity negative
  if text = ['n', 'a', 'n'] then return .undefined negative
  let number := Number.ofDecimal negative (← fractional? text)
  if number = .infinity false then none else some number

def scalar? (text : List Char) : Option Document :=
  if text = ['t', 'r', 'u', 'e'] then some (.bool true)
  else if text = ['f', 'a', 'l', 's', 'e'] then some (.bool false)
  else
    match integer? text with
    | some value => some (.integer value)
    | none => .number <$> number? text

end Whence.Toml
