import Whence.Settings
import Whence.Store.Basic
import Whence.Syntax.Program

/-!
# The state of evaluation

Evaluation works on a store and remembers the outcomes it has reached.  An outcome holds only in
the revision in which it was reached, so the memory is emptied when another revision is current.
-/

namespace Whence

/-- What an evaluation under a demand comes to. -/
structure Outcome where
  node : NodeId
  /-- What the demand has bound. -/
  env : EnvId
  /-- What follows the demand. -/
  next : Next
  /-- The nodes below `node` whose form the demand examined. -/
  inspected : List NodeId
  deriving DecidableEq, Repr

namespace Outcome

/-- An outcome that binds nothing and examined nothing below the node. -/
def plain (node : NodeId) (next : Next) : Outcome := ⟨node, .empty, next, []⟩

end Outcome

/-- Where, what, and how much of it is evaluated. -/
structure Request where
  env : EnvId
  expr : ExprId
  demand : DemandId
  deriving DecidableEq, Hashable, Repr

/-- The outcomes reached in one revision. -/
structure Memo where
  revision : Revision := .root
  outcomes : Std.HashMap Request Outcome := ∅

/-- A store and what evaluation remembers beside it.  The rules of evaluation hand the memory on
and never look at it, so that they work beside any other one. -/
structure Machine (Memory : Type := Memo) where
  store : Store := {}
  memo : Memory := by exact {}

/-- A part of an evaluation; what it did before failing stays done. -/
abbrev EvaluatingBeside (Memory : Type) := EStateM Error (Machine Memory)

abbrev Evaluating := EvaluatingBeside Memo

namespace Machine

variable {Memory : Type}

/-- Reads the store. -/
def inspect {α : Type} (read : Store → α) : EvaluatingBeside Memory α := do
  return read (← get).store

/-- Changes the store. -/
def change {α : Type} (operation : Store → α × Store) : EvaluatingBeside Memory α :=
  fun ⟨store, memo⟩ ↦
    match operation store with
    | (result, store) => .ok result ⟨store, memo⟩

/-- Runs an operation of the store that may fail. -/
def perform {α : Type} (operation : Storing α) : EvaluatingBeside Memory α :=
  fun ⟨store, memo⟩ ↦
    match operation store with
    | .ok result store => .ok result ⟨store, memo⟩
    | .error error store => .error error ⟨store, memo⟩

/-- Forgets the outcomes of a revision that is no longer current. -/
def synchronize (machine : Machine) : Machine :=
  if machine.memo.revision = machine.store.current then machine
  else { machine with memo := { revision := machine.store.current } }

def remembered? (machine : Machine) (settings : Settings) (request : Request) : Option Outcome :=
  if settings.memoize then machine.memo.outcomes[request]? else none

def remember (settings : Settings) (request : Request) (outcome : Outcome) (machine : Machine) :
    Machine :=
  if settings.memoize then
    match machine with
    | ⟨store, ⟨revision, outcomes⟩⟩ => ⟨store, ⟨revision, outcomes.insert request outcome⟩⟩
  else machine

/-- The remembered outcome of a request, or else the one that `compute` reaches. -/
def memoized (settings : Settings) (request : Request) (compute : Evaluating Outcome) :
    Evaluating Outcome := do
  modify synchronize
  match (← get).remembered? settings request with
  | some outcome => pure outcome
  | none =>
    let outcome ← compute
    modify (remember settings request outcome)
    pure outcome

end Machine

end Whence
