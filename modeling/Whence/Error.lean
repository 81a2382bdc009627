import Whence.Address
import Whence.Merge.Conflict
import Whence.Slice.Target

/-!
# Errors

What can go wrong while a program is built, evaluated or sliced.
-/

namespace Whence

/-- Why clauses cannot be compiled together. -/
inductive Overlap where
  | noClauses
  | sameValues
  /-- Patterns of two kinds at one place. -/
  | kinds (left right : String)
  deriving DecidableEq, Repr

/-- What a pass in the other direction does not allow. -/
inductive Update where
  | target (target : Target)
  | slice (direction : Direction)
  deriving DecidableEq, Repr

inductive Error where
  | demandMismatch (demand found : String)
  | nameNotFound (name : String)
  | addressCollision (address : Address) (conflict : Conflict)
  | directionViolation (direction : Direction) (update : Update)
  | primitiveType (op : String) (expected : Operand) (found : String)
  | userError (message : String)
  | arityMismatch (tag : String) (expected found : Nat)
  | unknownConstructor (tag : String)
  | overlappingClauses (overlap : Overlap)
  | unevaluated (address : Address)
  | unknownRevision (revision : Revision)
  | depthExceeded (limit : Nat)
  /-- Forcing the parts of a value came to no end. -/
  | bottomless (node : NodeId)
  deriving DecidableEq, Repr

namespace Overlap

def message : Overlap → String
  | .noClauses => "no clauses"
  | .sameValues => "two clauses match the same values"
  | .kinds left right => left ++ " pattern cannot be combined with " ++ right ++ " pattern"

end Overlap

namespace Update

def text : Update → String
  | .target marked => marked.text
  | .slice direction => "a " ++ direction.text ++ " slice"

end Update

namespace Error

def message : Error → String
  | .demandMismatch demand found =>
    "demand mismatch: " ++ demand ++ " demanded, found " ++ found
  | .nameNotFound name => "name not found: `" ++ name ++ "`"
  | .addressCollision address conflict =>
    "address collision at " ++ address.text ++ ": " ++ conflict.message
  | .directionViolation direction update =>
    "incompatible " ++ direction.text ++ " annotation update on " ++ update.text
  | .primitiveType op expected found =>
    "primitive `" ++ op ++ "` expects " ++ expected.expected ++ ", found " ++ found
  | .userError message => message
  | .arityMismatch tag expected found =>
    "constructor `" ++ tag ++ "` takes " ++ toString expected ++ " argument(s), given " ++
      toString found
  | .unknownConstructor tag => "unknown constructor `" ++ tag ++ "`"
  | .overlappingClauses overlap => "overlapping clauses: " ++ overlap.message
  | .unevaluated address => address.text ++ " has no value and no way to compute one"
  | .unknownRevision revision => "unknown revision " ++ toString revision.index
  | .depthExceeded limit => "evaluation exceeded the maximum depth of " ++ toString limit
  | .bottomless node => "the value of " ++ node.text ++ " has no bottom"

end Error

end Whence
