import Whence.Evaluation.Rules

/-!
# Evaluation

Evaluation ties the knot of the rules: parts are evaluated with one level of nesting less.  A
remembered outcome needs no nesting.
-/

namespace Whence.Evaluation

open Machine

/-- Evaluates with at most `depth` evaluations inside each other. -/
def nested (program : Program) (settings : Settings) : Nat → Evaluator
  | 0, env, expr, demand =>
    memoized settings ⟨env, expr, demand⟩ (throw (.depthExceeded settings.maxDepth))
  | depth + 1, env, expr, demand =>
    memoized settings ⟨env, expr, demand⟩
      (Rules.step program settings.reach (nested program settings depth) env expr demand)

/-- Evaluates an expression as far as the demand asks. -/
def under (program : Program) (settings : Settings) : Evaluator :=
  nested program settings settings.maxDepth

/-- Evaluates an expression completely. -/
def evaluate (program : Program) (settings : Settings) (env : EnvId) (expr : ExprId) :
    Evaluating NodeId := do
  let outcome ← under program settings env expr .everything
  pure outcome.node

/-- Extends an environment by the given primitives under their names. -/
def bindPrimitives (program : Program) (env : EnvId) : List Primitive → Evaluating EnvId
  | [] => pure env
  | primitive :: rest => do
    match program.symbol? primitive.name with
    | none => throw (.nameNotFound primitive.name)
    | some name =>
      let node ← perform (Store.primitive primitive)
      let inner ← change fun store ↦ store.extend env name (.node node)
      bindPrimitives program inner rest

/-- The environment that binds the whole library. -/
def openLibrary (program : Program) : Evaluating EnvId :=
  bindPrimitives program .empty Primitive.all

end Whence.Evaluation
