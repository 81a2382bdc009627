import Whence.Toml.Reader

/-!
# Dates and times of a settings file

A moment is a date, a time of day or both, a date being one of the calendar.  A date with a time
may also have an offset from universal time.
-/

namespace Whence.Toml

def isLeapYear (year : Nat) : Bool := year % 4 == 0 && (year % 100 != 0 || year % 400 == 0)

def daysOf (year month : Nat) : Nat :=
  if month = 2 then if isLeapYear year then 29 else 28
  else if month ∈ [4, 6, 9, 11] then 30
  else 31

namespace Reader

/-- A numeral of so many digits whose value is between two bounds. -/
def numeral (width low high : Nat) : Reader Nat := fun text ↦
  let digits := text.take width
  let value := digits.foldl (fun value digit ↦ value * 10 + (digit.toNat - '0'.toNat)) 0
  if digits.length = width ∧ digits.all Char.isDigit ∧ low ≤ value ∧ value ≤ high then
    some (value, text.drop width)
  else none

def date : Reader Unit := do
  let year ← numeral 4 0 9999
  expect ['-']
  let month ← numeral 2 1 12
  expect ['-']
  let _ ← numeral 2 1 (daysOf year month)

/-- A point and at least one digit. -/
def fraction : Reader Unit := do
  expect ['.']
  if (← takeWhile Char.isDigit).isEmpty then failure

/-- A time of day; a leap second is allowed in every minute. -/
def time : Reader Unit := do
  let _ ← numeral 2 0 23
  expect [':']
  let _ ← numeral 2 0 59
  expect [':']
  let _ ← numeral 2 0 60
  let _ ← optional fraction

def offset : Reader Unit := do
  if ← acceptOne ['Z', 'z'] then return
  expectOne ['+', '-']
  let _ ← numeral 2 0 23
  expect [':']
  let _ ← numeral 2 0 59

/-- The time of a date, after a letter or a blank. -/
def timeOfDate : Reader Unit := do
  expectOne ['T', 't', ' ']
  time
  let _ ← optional offset

def datedMoment : Reader Unit := do
  date
  let _ ← optional timeOfDate

/-- A moment as it is written. -/
def moment : Reader String := fun text ↦ do
  let (_, rest) ← (datedMoment text).orElse fun _ ↦ time text
  return (String.ofList (text.take (text.length - rest.length)), rest)

end Reader

end Whence.Toml
