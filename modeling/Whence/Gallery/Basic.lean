import Whence.Gallery.Arithmetic
import Whence.Gallery.Lists

/-!
# The gallery

All examples, in the order in which they are listed.
-/

namespace Whence.Gallery

def all : List Example :=
  [arithmetic, letArithmetic, rounding, factorial, length, map, filter, reverse, compose,
   lexicalScoping, foldrSumSquares, zipWith, evenOdd, strings, swapPair, lazyBinding,
   nilAgainstCons]

def find? (name : String) : Option Example :=
  all.find? fun candidate ↦ candidate.name == name

end Whence.Gallery
