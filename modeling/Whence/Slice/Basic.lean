import Whence.Slice.Closure
import Whence.Slice.Dependency
import Whence.Slice.Marks

/-!
# Slices

A forward slice takes targets away and everything known that depends on them.  A backward slice
marks targets as needed and everything they were computed from.  Restricting drops the flags that
have no part in how a node was computed.
-/

namespace Whence.Slice

def expectDirection (marks : Marks) (direction : Direction) : Except Error Unit :=
  if marks.direction = direction then .ok ()
  else .error (.directionViolation marks.direction (.slice direction))

/-- A pass under way: its marks, and the targets that it has still to look at in the order in which
they came. -/
structure Pass where
  marks : Marks
  queue : List Target

namespace Pass

/-- Moves a target to a mark and puts it at the end of the queue. -/
def push (pass : Pass) (target : Target) (mark : Mark) : Except Error Pass := do
  let marks ← pass.marks.set target mark
  pure { marks, queue := pass.queue ++ [target] }

/-- Looks at the targets of the queue one after the other, at most `steps` of them. -/
def run (visit : Pass → Target → Except Error Pass) : Nat → Pass → Except Error Marks
  | 0, pass => pure pass.marks
  | steps + 1, pass =>
    match pass.queue with
    | [] => pure pass.marks
    | target :: queue => do run visit steps (← visit { pass with queue } target)

end Pass

/-- A node is available only if all of its dependencies are. -/
def availability (marks : Marks) (store : Store) (node : NodeId) : Mark :=
  (store.dependencies node).foldl (fun mark target ↦ mark.meet (marks.mark target)) .top

/-- Takes a node away that has lost a dependency. -/
def lose (store : Store) (pass : Pass) (node : NodeId) : Except Error Pass :=
  if pass.marks.mark (.node node) = .bot then pure pass
  else
    let available := availability pass.marks store node
    if available = .bot then pass.push (.node node) available else pure pass

/-- Makes the roots unavailable, and with them and all earlier flags every user of a flagged
target.  A node of the store enters the queue at most once after the start. -/
def forward (marks : Marks) (store : Store) (roots : List Target) : Except Error Marks := do
  expectDirection marks .forward
  let users := store.users
  let visit : Pass → Target → Except Error Pass :=
    fun pass target ↦ (users.of target).foldlM (lose store) pass
  let start : Pass := { marks, queue := marks.flagged.toList }
  let pass ← roots.foldlM (fun pass root ↦ pass.push root .bot) start
  pass.run visit (pass.queue.length + store.size)

/-- What a target was computed from; an expression is computed from nothing. -/
def sources (store : Store) : Target → List Target
  | .expr _ => []
  | .node id => store.dependencies id

/-- Marks a target as needed, unless it is. -/
def need (pass : Pass) (target : Target) : Except Error Pass :=
  let needed := pass.marks.mark target
  if needed = .bot then pass.push target (needed.join .top) else pure pass

/-- Marks the roots as needed, and with them everything they were computed from.  Beside nodes only
their expressions enter the queue. -/
def backward (marks : Marks) (store : Store) (roots : List Target) : Except Error Marks := do
  expectDirection marks .backward
  let visit : Pass → Target → Except Error Pass :=
    fun pass target ↦ (sources store target).foldlM need pass
  let start : Pass := { marks, queue := [] }
  let pass ← roots.foldlM (fun pass root ↦ pass.push root .top) start
  pass.run visit (pass.queue.length + 2 * store.size)

/-- The nodes of which a target's value is made. -/
def parts (store : Store) : Target → List Target
  | .expr _ => []
  | .node id => (store.children id).map Target.node

/-- Keeps the flags that are reached from `root` along `next`.  Nothing but a node of the store leads
on, so that what these lead to bounds what can be reached beside the root. -/
def retain (marks : Marks) (store : Store) (next : Target → List Target) (root : NodeId) : Marks :=
  let start : Target := .node root
  let limit := (store.nodeIds.flatMap fun node ↦ next (.node node)).length
  let reached := Closure.close next limit [start] {start}
  { marks with flagged := marks.flagged.filter reached.contains }

/-- Keeps the flags on what a node was computed from and on what it is made of. -/
def restrict (marks : Marks) (store : Store) (root : NodeId) : Marks :=
  retain marks store (fun target ↦ parts store target ++ sources store target) root

/-- Keeps the flags on what a node is made of. -/
def restrictToValues (marks : Marks) (store : Store) (root : NodeId) : Marks :=
  retain marks store (parts store) root

end Whence.Slice
