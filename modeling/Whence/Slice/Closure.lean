import Std.Data.HashSet
import Whence.Slice.Target

/-!
# Closing a set of targets

The flags spread along a relation between targets: whatever follows a target in the queue is
flagged, and enters the queue if it was not flagged before.  A target enters the queue at most once
after the start, so the length of the queue and the number of targets that can be flagged bound the
number of steps.
-/

namespace Whence.Closure

/-- Flags the targets that are new and puts them at the end of the queue. -/
def enqueue (queue : List Target) (flags : Std.HashSet Target) :
    List Target → List Target × Std.HashSet Target
  | [] => (queue, flags)
  | target :: rest =>
    if flags.contains target then enqueue queue flags rest
    else enqueue (queue ++ [target]) (flags.insert target) rest

def spread (next : Target → List Target) :
    Nat → List Target → Std.HashSet Target → Std.HashSet Target
  | 0, _, flags => flags
  | _, [], flags => flags
  | steps + 1, target :: queue, flags =>
    let (queue, flags) := enqueue queue flags (next target)
    spread next steps queue flags

/-- Spreads from `roots`, when at most `limit` targets can be flagged beside those that are. -/
def close (next : Target → List Target) (limit : Nat) (roots : List Target)
    (flags : Std.HashSet Target) : Std.HashSet Target :=
  spread next (roots.length + limit) roots flags

end Whence.Closure
