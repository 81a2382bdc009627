import Std.Data.HashSet
import Whence.Error

/-!
# The marks of a pass

A pass runs in one direction.  It starts with the same mark everywhere and only ever moves marks
away from it, so that it is enough to keep the targets whose mark has moved.
-/

namespace Whence

structure Marks where
  direction : Direction := .forward
  flagged : Std.HashSet Target := ∅

namespace Marks

def start (direction : Direction) : Marks := { direction }

def isFlagged (marks : Marks) (target : Target) : Bool := marks.flagged.contains target

def mark (marks : Marks) (target : Target) : Mark :=
  if marks.isFlagged target then marks.direction.initial.negate else marks.direction.initial

/-- Moves a target to a mark.  Moving it back to where the pass started is refused. -/
def set (marks : Marks) (target : Target) (mark : Mark) : Except Error Marks :=
  if marks.mark target = mark then .ok marks
  else if mark = marks.direction.initial then
    .error (.directionViolation marks.direction (.target target))
  else .ok { marks with flagged := marks.flagged.insert target }

/-- Whether a forward pass has left the target available. -/
def isAvailable (marks : Marks) (target : Target) : Bool :=
  marks.direction == .forward && !marks.isFlagged target

/-- Whether a backward pass has found the target to be needed. -/
def isNeeded (marks : Marks) (target : Target) : Bool :=
  marks.direction == .backward && marks.isFlagged target

def size (marks : Marks) : Nat := marks.flagged.size

/-- The flagged targets, expressions before nodes, each in the order of their numbers. -/
def targets (marks : Marks) : List Target := marks.flagged.toList.mergeSort Target.precedes

def flaggedNodes (marks : Marks) : List NodeId := marks.targets.filterMap Target.node?

def flaggedExprs (marks : Marks) : List ExprId := marks.targets.filterMap Target.expr?

end Marks

end Whence
