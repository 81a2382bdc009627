import Whence.Evaluation.Machine

/-!
# Matching a node against a demand

Matching evaluates a node that has no value yet, under the same demand, and otherwise takes its
value apart as the demand says.  Evaluation itself is a parameter here.  A bound says how far
a match descends into parts that already have values: a demand made of patterns is as deep as the
program has demands at most, but forcing a value that contains itself has no end.
-/

namespace Whence

/-- An evaluation of an expression in an environment under a demand. -/
abbrev EvaluatorBeside (Memory : Type) := EnvId → ExprId → DemandId → EvaluatingBeside Memory Outcome

abbrev Evaluator := EvaluatorBeside Memo

namespace Matching

open Machine

variable {Memory : Type}

/-- Binds a name to a node and leaves the node as it is. -/
def bind (node : NodeId) (name : Symbol) (next : Next) : EvaluatingBeside Memory Outcome := do
  let env ← change fun store ↦ store.singleton name (.node node)
  pure ⟨node, env, next, []⟩

def mismatch (program : Program) (demand : DemandId) (value : Value) : Error :=
  .demandMismatch (program.describe demand) (value.describe program.symbols)

/-- Matches constructor arguments from left to right, each against the demand that follows the one
before it.  `outcome` is what has been reached so far. -/
def arguments (program : Program) (count : Nat)
    (matchOne : NodeId → DemandId → EvaluatingBeside Memory Outcome) (outcome : Outcome) :
    List NodeId → EvaluatingBeside Memory Outcome
  | [] => pure outcome
  | arg :: args =>
    match outcome.next with
    | .demand demand => do
      let matched ← matchOne arg demand
      let env ← change fun store ↦ store.concat matched.env outcome.env
      let examined := if (program.demand demand).isBind then [] else [arg]
      let inspected := outcome.inspected ++ examined ++ matched.inspected
      arguments program count matchOne ⟨outcome.node, env, matched.next, inspected⟩ args
    | _ =>
      throw (.demandMismatch (toString count ++ " argument(s)") "a pattern that stops early")

def forceAll (force : NodeId → EvaluatingBeside Memory Outcome) :
    List NodeId → EvaluatingBeside Memory Unit
  | [] => pure ()
  | arg :: args => do
    let _ ← force arg
    forceAll force args

/-- Matches a node with the given value. -/
def value (program : Program) (matchOne : NodeId → DemandId → EvaluatingBeside Memory Outcome)
    (node : NodeId) (demand : DemandId) (value : Value) : EvaluatingBeside Memory Outcome :=
  match program.demand demand, value with
  | .everything next, .constructor _ args => do
    forceAll (fun arg ↦ matchOne arg .everything) args
    pure (.plain node next)
  | .everything next, _ => pure (.plain node next)
  | .number next, .number _ => pure (.plain node next)
  | .text next, .text _ => pure (.plain node next)
  | .function next, .closure _ => pure (.plain node next)
  | .function next, .primitive _ => pure (.plain node next)
  | .constructor cases, .constructor tag args =>
    match cases.lookup tag with
    | some next => arguments program args.length matchOne (.plain node next) args
    | none => throw (mismatch program demand value)
  | _, _ => throw (mismatch program demand value)

/-- Matches a node, descending at most `steps` times. -/
def within (program : Program) (evaluate : EvaluatorBeside Memory) :
    Nat → NodeId → DemandId → EvaluatingBeside Memory Outcome
  | 0, node, _ => throw (.bottomless node)
  | steps + 1, node, demand =>
    match program.demand demand with
    | .bind name next => bind node name next
    | _ => do
      match ← inspect fun store ↦ store.value? node with
      | some known => value program (within program evaluate steps) node demand known
      | none =>
        match ← inspect fun store ↦ store.address node with
        | .evaluation env expr => evaluate env expr demand
        | address => throw (.unevaluated address)

/-- Matches a node.  The nodes and demands at hand can be descended in any case; `reach` allows for
the nodes that come into being on the way. -/
def node (program : Program) (reach : Nat) (evaluate : EvaluatorBeside Memory) (node : NodeId)
    (demand : DemandId) : EvaluatingBeside Memory Outcome := do
  let size ← inspect Store.size
  within program evaluate (size + program.demands.size + reach) node demand

end Matching

end Whence
