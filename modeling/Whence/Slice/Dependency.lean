import Whence.Slice.Target
import Whence.Store.Basic

/-!
# Dependencies

The value of a node depends on the expression from which it was evaluated, on the evaluated nodes
of which it is made, and on the evaluated nodes that its explanation names.  The primitive library
is the same everywhere and never counts.
-/

namespace Whence.Store

/-- The nodes that a node refers to: first the parts of its value, then those that explain it. -/
def references (store : Store) (id : NodeId) : List NodeId :=
  store.children id ++ ((store.explanation? id).map Explanation.dependencies).getD []

/-- Whether a reference counts as a dependency. -/
def counts (store : Store) (id : NodeId) : Bool := store.isKnown id && !store.isLibrary id

/-- What the value of a node was computed from, each target once, in the order of first mention. -/
def dependencies (store : Store) (id : NodeId) : List Target :=
  let source := (store.address id).expr?.toList.map Target.expr
  let nodes := ((store.references id).filter store.counts).eraseDups
  source ++ nodes.map Target.node

def knownNodes (store : Store) : List NodeId := store.nodeIds.filter store.isKnown

/-- For each target the known nodes that depend on it, in the order of their numbers. -/
abbrev Users := Std.HashMap Target (List NodeId)

namespace Users

/-- Adds a node before those already present. -/
def add (node : NodeId) (users : Users) (target : Target) : Users :=
  users.insert target (node :: users.getD target [])

def of (users : Users) (target : Target) : List NodeId := users.getD target []

end Users

def users (store : Store) : Users :=
  store.knownNodes.foldr (fun node users ↦ (store.dependencies node).foldl (Users.add node) users) ∅

end Whence.Store
