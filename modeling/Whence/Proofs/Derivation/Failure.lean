import Whence.Proofs.Derivation.Basic

/-!
# How evaluation fails

The counterpart of `Settles` and `Rule` for evaluations and matches that fail.  A failure is derived
on the store that it leaves behind, from what was evaluated before it and the failure of a part.
-/

namespace Whence

namespace Error

/-- Evaluation gave up instead of coming to an answer. -/
def isLimit : Error → Bool
  | .depthExceeded _ | .bottomless _ => true
  | _ => false

end Error

namespace Demand

/-- Whether the demand looks at the value and does not accept its form. -/
def rejects : Demand → Value → Bool
  | .bind _ _, _ => false
  | .everything _, _ => false
  | .constructor cases, .constructor tag _ => (cases.lookup tag).isNone
  | demand, value => (demand.accepts? value).isNone

end Demand

/-- A match on the store as it is, whatever nodes it looks at. -/
abbrev Settled (program : Program) (store : Store) (node : NodeId) (demand : DemandId)
    (outcome : Outcome) : Prop :=
  Settles program store (fun _ ↦ True) node demand outcome

/-- The outcome belongs to the node of the expression and is what matching the node comes to. -/
structure Reached (program : Program) (store : Store) (env : EnvId) (expr : ExprId)
    (demand : DemandId) (outcome : Outcome) : Prop where
  lookup : store.lookup? (.evaluation env expr) = some outcome.node
  settled : Settled program store outcome.node demand outcome

/-- The node of the expression has the value. -/
abbrev Known (store : Store) (env : EnvId) (expr : ExprId) (node : NodeId) (value : Value) : Prop :=
  Evaluated store (fun _ ↦ True) env expr node value

/-- What may fail. -/
inductive Task where
  | eval (env : EnvId) (expr : ExprId) (demand : DemandId)
  /-- Evaluation by the rule for the form of the expression. -/
  | form (form : Expr) (env : EnvId) (expr : ExprId) (demand : DemandId)
  | definitions (env : EnvId) (definitions : List Definition)
  | node (node : NodeId) (demand : DemandId)
  /-- The arguments of a constructor that has `count` of them, after `outcome` has been reached. -/
  | args (count : Nat) (outcome : Outcome) (args : List NodeId)
  | all (parts : List NodeId)

inductive Fails (program : Program) (store : Store) : Task → Error → Prop
  | form {env : EnvId} {expr : ExprId} {demand : DemandId} {error : Error} :
      (program.demand demand).isBind = false →
      Fails program store (.form (program.expr expr) env expr demand) error →
      Fails program store (.eval env expr demand) error
  /-- The value was found and the demand refuses it. -/
  | value {form : Expr} {env : EnvId} {expr : ExprId} {demand : DemandId} {node : NodeId}
      {error : Error} :
      store.lookup? (.evaluation env expr) = some node →
      Fails program store (.node node demand) error →
      Fails program store (.form form env expr demand) error
  | unknownConstructor {tag : Symbol} {args : List ExprId} {env : EnvId} {expr : ExprId}
      {demand : DemandId} :
      program.constructor? tag = none →
      Fails program store (.form (.constructor tag args) env expr demand)
        (.unknownConstructor (program.name tag))
  | arityMismatch {tag : Symbol} {args : List ExprId} {constructor : Constructor} {env : EnvId}
      {expr : ExprId} {demand : DemandId} :
      program.constructor? tag = some constructor → constructor.arity ≠ args.length →
      Fails program store (.form (.constructor tag args) env expr demand)
        (.arityMismatch (program.name tag) constructor.arity args.length)
  | unboundVar {name : Symbol} {env : EnvId} {expr : ExprId} {demand : DemandId} :
      store.envs.get? env name = none →
      Fails program store (.form (.var name) env expr demand) (.nameNotFound (program.name name))
  | unboundOp {name : Symbol} {env : EnvId} {expr : ExprId} {demand : DemandId} :
      store.envs.get? env name = none →
      Fails program store (.form (.op name) env expr demand) (.nameNotFound (program.name name))
  | var {name : Symbol} {env : EnvId} {expr : ExprId} {demand : DemandId} {binding : Binding}
      {target : NodeId} {error : Error} :
      store.envs.get? env name = some binding → Resolves program store binding target →
      Fails program store (.node target demand) error →
      Fails program store (.form (.var name) env expr demand) error
  | op {name : Symbol} {env : EnvId} {expr : ExprId} {demand : DemandId} {binding : Binding}
      {target : NodeId} {error : Error} :
      store.envs.get? env name = some binding → Resolves program store binding target →
      Fails program store (.node target demand) error →
      Fails program store (.form (.op name) env expr demand) error
  | function {function argument : ExprId} {env : EnvId} {expr : ExprId} {demand : DemandId}
      {error : Error} :
      Fails program store (.eval env function .function) error →
      Fails program store (.form (.app function argument) env expr demand) error
  | literal {function argument : ExprId} {env : EnvId} {expr : ExprId} {demand : DemandId}
      {applied : NodeId} {closure : Closure} :
      Known store env function applied (.closure closure) →
      (∀ parameter, program.expr closure.function ≠ .function parameter) →
      Fails program store (.form (.app function argument) env expr demand)
        (.demandMismatch "function" (program.expr closure.function).kind)
  | argument {function argument : ExprId} {env : EnvId} {expr : ExprId} {demand : DemandId}
      {applied : NodeId} {closure : Closure} {parameter : DemandId} {error : Error} :
      Known store env function applied (.closure closure) →
      program.expr closure.function = .function parameter →
      Fails program store (.eval env argument parameter) error →
      Fails program store (.form (.app function argument) env expr demand) error
  | noBody {function argument : ExprId} {env : EnvId} {expr : ExprId} {demand : DemandId}
      {applied : NodeId} {closure : Closure} {parameter : DemandId} {matched : Outcome} :
      Known store env function applied (.closure closure) →
      program.expr closure.function = .function parameter →
      Reached program store env argument parameter matched →
      (∀ body, matched.next ≠ .body body) →
      Fails program store (.form (.app function argument) env expr demand)
        (.demandMismatch (program.describe parameter) "a pattern without a body")
  | body {function argument body : ExprId} {env inner : EnvId} {expr : ExprId} {demand : DemandId}
      {applied : NodeId} {closure : Closure} {parameter : DemandId} {matched : Outcome}
      {error : Error} :
      Known store env function applied (.closure closure) →
      program.expr closure.function = .function parameter →
      Reached program store env argument parameter matched → matched.next = .body body →
      store.envs.entries inner =
        store.envs.entries matched.env ++ store.envs.entries closure.env →
      Fails program store (.eval inner body demand) error →
      Fails program store (.form (.app function argument) env expr demand) error
  | operand {function argument : ExprId} {env : EnvId} {expr : ExprId} {demand : DemandId}
      {applied : NodeId} {primitive : PrimitiveValue} {error : Error} :
      Known store env function applied (.primitive primitive) →
      Fails program store (.eval env argument primitive.operand.demand) error →
      Fails program store (.form (.app function argument) env expr demand) error
  | unary {function argument : ExprId} {env : EnvId} {expr : ExprId} {demand : DemandId}
      {applied operand : NodeId} {op : UnaryOp} {right : Value} {next : Next} {error : Error} :
      Known store env function applied (.primitive (.unary op)) →
      Known store env argument operand right →
      (program.demand op.operand.demand).accepts? right = some next →
      op.apply right = .error error →
      Fails program store (.form (.app function argument) env expr demand) error
  | firstOperand {function argument : ExprId} {env : EnvId} {expr : ExprId} {demand : DemandId}
      {applied operand first : NodeId} {op : BinaryOp} {right : Value} :
      Known store env function applied (.primitive (.partially op first)) →
      Known store env argument operand right → store.value? first = none →
      Fails program store (.form (.app function argument) env expr demand)
        (.unevaluated (store.address first))
  | binary {function argument : ExprId} {env : EnvId} {expr : ExprId} {demand : DemandId}
      {applied operand first : NodeId} {op : BinaryOp} {left right : Value} {next : Next}
      {error : Error} :
      Known store env function applied (.primitive (.partially op first)) →
      Known store env argument operand right →
      (program.demand op.operand.demand).accepts? right = some next →
      store.value? first = some left → op.apply left right = .error error →
      Fails program store (.form (.app function argument) env expr demand) error
  | letIn {name : Symbol} {bound body : ExprId} {env inner : EnvId} {expr : ExprId}
      {demand : DemandId} {node : NodeId} {error : Error} :
      store.lookup? (.evaluation env bound) = some node →
      store.envs.entries inner = (name, .node node) :: store.envs.entries env →
      Fails program store (.eval inner body demand) error →
      Fails program store (.form (.letIn name bound body) env expr demand) error
  | letRec {group : GroupId} {body : ExprId} {env inner : EnvId} {expr : ExprId}
      {demand : DemandId} {error : Error} :
      Closes program store ⟨env, group⟩ inner →
      Fails program store (.eval inner body demand) error →
      Fails program store (.form (.letRec group body) env expr demand) error
  | scrutinee {scrutinee : ExprId} {cases : DemandId} {env : EnvId} {expr : ExprId}
      {demand : DemandId} {error : Error} :
      Fails program store (.eval env scrutinee cases) error →
      Fails program store (.form (.matching scrutinee cases) env expr demand) error
  | noCase {scrutinee : ExprId} {cases : DemandId} {env : EnvId} {expr : ExprId}
      {demand : DemandId} {matched : Outcome} :
      Reached program store env scrutinee cases matched →
      (∀ body, matched.next ≠ .body body) →
      Fails program store (.form (.matching scrutinee cases) env expr demand)
        (.demandMismatch (program.describe cases) "a pattern without a body")
  | matching {scrutinee body : ExprId} {cases : DemandId} {env inner : EnvId} {expr : ExprId}
      {demand : DemandId} {matched : Outcome} {error : Error} :
      Reached program store env scrutinee cases matched → matched.next = .body body →
      store.envs.entries inner = store.envs.entries matched.env ++ store.envs.entries env →
      Fails program store (.eval inner body demand) error →
      Fails program store (.form (.matching scrutinee cases) env expr demand) error
  | definitions {definitions : List Definition} {body : ExprId} {env : EnvId} {expr : ExprId}
      {demand : DemandId} {error : Error} :
      Fails program store (.definitions env definitions) error →
      Fails program store (.form (.defs definitions body) env expr demand) error
  | defs {definitions : List Definition} {body : ExprId} {env inner : EnvId} {expr : ExprId}
      {demand : DemandId} {explanations : List DefinitionExplanation} {error : Error} :
      Defines program store env definitions inner explanations →
      Fails program store (.eval inner body demand) error →
      Fails program store (.form (.defs definitions body) env expr demand) error
  | defineValue {name : Symbol} {bound : ExprId} {rest : List Definition} {env inner : EnvId}
      {node : NodeId} {error : Error} :
      store.lookup? (.evaluation env bound) = some node →
      store.envs.entries inner = (name, .node node) :: store.envs.entries env →
      Fails program store (.definitions inner rest) error →
      Fails program store (.definitions env (.value name bound :: rest)) error
  | noPrimitive {name op : Symbol} {rest : List Definition} {env : EnvId} :
      Primitive.ofName? (program.name op) = none →
      Fails program store (.definitions env (.primitive name op :: rest))
        (.nameNotFound (program.name op))
  | definePrimitive {name op : Symbol} {primitive : Primitive} {rest : List Definition}
      {env inner : EnvId} {node : NodeId} {error : Error} :
      Primitive.ofName? (program.name op) = some primitive →
      store.library.lookup primitive = some node →
      store.envs.entries inner = (name, .node node) :: store.envs.entries env →
      Fails program store (.definitions inner rest) error →
      Fails program store (.definitions env (.primitive name op :: rest)) error
  | defineGroup {group : GroupId} {rest : List Definition} {env inner : EnvId} {error : Error} :
      Closes program store ⟨env, group⟩ inner →
      Fails program store (.definitions inner rest) error →
      Fails program store (.definitions env (.group group :: rest)) error
  | mismatch {node : NodeId} {demand : DemandId} {value : Value} :
      store.value? node = some value → (program.demand demand).rejects value = true →
      Fails program store (.node node demand) (Matching.mismatch program demand value)
  | evaluation {node : NodeId} {demand : DemandId} {env : EnvId} {expr : ExprId} {error : Error} :
      store.address node = .evaluation env expr →
      Fails program store (.eval env expr demand) error →
      Fails program store (.node node demand) error
  | everything {node : NodeId} {demand : DemandId} {next : Next} {value : Value} {error : Error} :
      program.demand demand = .everything next → store.value? node = some value →
      Fails program store (.all value.parts) error →
      Fails program store (.node node demand) error
  | constructor {node : NodeId} {demand : DemandId} {cases : List (Symbol × Next)} {tag : Symbol}
      {args : List NodeId} {next : Next} {error : Error} :
      program.demand demand = .constructor cases →
      store.value? node = some (.constructor tag args) → cases.lookup tag = some next →
      Fails program store (.args args.length (.plain node next) args) error →
      Fails program store (.node node demand) error
  | arg {count : Nat} {outcome : Outcome} {arg : NodeId} {args : List NodeId} {demand : DemandId}
      {error : Error} :
      outcome.next = .demand demand → Fails program store (.node arg demand) error →
      Fails program store (.args count outcome (arg :: args)) error
  | stopsEarly {count : Nat} {outcome : Outcome} {arg : NodeId} {args : List NodeId} :
      (∀ demand, outcome.next ≠ .demand demand) →
      Fails program store (.args count outcome (arg :: args))
        (.demandMismatch (toString count ++ " argument(s)") "a pattern that stops early")
  | args {count : Nat} {outcome matched : Outcome} {arg : NodeId} {args : List NodeId}
      {demand : DemandId} {env : EnvId} {error : Error} :
      outcome.next = .demand demand → Settled program store arg demand matched →
      store.envs.entries env = store.envs.entries matched.env ++ store.envs.entries outcome.env →
      Fails program store (.args count (outcome.advance program arg demand matched env) args) error →
      Fails program store (.args count outcome (arg :: args)) error
  | part {part : NodeId} {parts : List NodeId} {error : Error} :
      Fails program store (.node part .everything) error →
      Fails program store (.all (part :: parts)) error
  | parts {part : NodeId} {parts : List NodeId} {outcome : Outcome} {error : Error} :
      Settled program store part .everything outcome →
      Fails program store (.all parts) error → Fails program store (.all (part :: parts)) error

end Whence
