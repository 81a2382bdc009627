/-!
# Ranges of code points

A property of characters is kept as a list of closed ranges of code points.
-/

namespace Whence.Text

/-- The first and the last code point of a closed range. -/
abbrev Range := Nat × Nat

namespace Range

def covers (range : Range) (character : Char) : Bool :=
  range.1 ≤ character.toNat && character.toNat ≤ range.2

def covered (ranges : List Range) (character : Char) : Bool :=
  ranges.any (fun range ↦ covers range character)

end Range

end Whence.Text
