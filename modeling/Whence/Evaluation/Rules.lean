import Whence.Evaluation.Matching
import Whence.Primitive.Application

/-!
# The rules of evaluation

One rule for each form of expression.  The rule finds the value, records it together with its
explanation at the address of the expression, and matches it against the demand.  Evaluation of
parts is a parameter.  Bound expressions, arguments of constructors and arguments under a variable
pattern are only registered; whoever demands them evaluates them by their address.
-/

namespace Whence.Rules

open Machine

variable {Memory : Type} (program : Program) (reach : Nat) (evaluate : EvaluatorBeside Memory)

/-- Records a value that explains itself. -/
def given (address : Address) (value : Value) (demand : DemandId) :
    EvaluatingBeside Memory Outcome := do
  let node ← perform (Store.write address (.of .given value))
  Matching.node program reach evaluate node demand

/-- Records at `address` the value of the node of `outcome`, explained by `explanation`. -/
def explain (address : Address) (explanation : Explanation) (source : NodeId) (outcome : Outcome) :
    EvaluatingBeside Memory Outcome := do
  let value ← inspect fun store ↦ store.value? source
  let node ← perform (Store.write address ⟨some explanation, value⟩)
  pure { outcome with node }

/-- The body that a match has selected. -/
def bodyOf (outcome : Outcome) (demand : DemandId) : EvaluatingBeside Memory ExprId :=
  match outcome.next with
  | .body body => pure body
  | _ => throw (.demandMismatch (program.describe demand) "a pattern without a body")

def knownValue (node : NodeId) : EvaluatingBeside Memory Value := do
  match ← inspect fun store ↦ store.value? node with
  | some value => pure value
  | none => throw (.unevaluated (← inspect fun store ↦ store.address node))

/-- The environment of the scope with a recursive binding for each entry of the group. -/
def closeGroup (scope : Scope) : EvaluatingBeside Memory EnvId :=
  let bindings := (program.group scope.group).entries.zipIdx.map fun (entry, position) ↦
    (entry.name, Binding.recursive scope position)
  change fun store ↦
    let (env, envs) := store.envs.extendAll scope.env bindings
    (env, { store with envs })

/-- The node of the closure for one entry of the group. -/
def closeEntry (scope : Scope) (entry : GroupEntry) : EvaluatingBeside Memory NodeId := do
  let env ← closeGroup program scope
  let closure : Closure := ⟨env, entry.function, some scope⟩
  perform (Store.write (.evaluation env entry.function) (.of .given (.closure closure)))

def closeMembers (scope : Scope) : EvaluatingBeside Memory (List Member) :=
  (program.group scope.group).entries.mapM fun entry ↦ do
    let closure ← closeEntry program scope entry
    pure ⟨entry.name, closure⟩

/-- The node to which a binding of `name` leads. -/
def resolve (name : Symbol) : Binding → EvaluatingBeside Memory NodeId
  | .node id => pure id
  | .recursive scope position =>
    match (program.group scope.group).entries[position]? with
    | some entry => closeEntry program scope entry
    | none => throw (.nameNotFound (program.name name))

def lookup (env : EnvId) (address : Address) (name : Symbol) (demand : DemandId) :
    EvaluatingBeside Memory Outcome := do
  match ← inspect fun store ↦ store.envs.get? env name with
  | none => throw (.nameNotFound (program.name name))
  | some binding =>
    let target ← resolve program name binding
    let outcome ← Matching.node program reach evaluate target demand
    explain address (.lookup name target) target outcome

/-- The closures around a closure from a recursive group. -/
def scopeMembers : Option Scope → EvaluatingBeside Memory (List Member)
  | some scope => closeMembers program scope
  | none => pure []

def applyClosure (env : EnvId) (address : Address) (function : NodeId) (closure : Closure)
    (argument : ExprId) (demand : DemandId) : EvaluatingBeside Memory Outcome := do
  match program.expr closure.function with
  | .function parameter =>
    let matched ← evaluate env argument parameter
    let body ← bodyOf program matched parameter
    let members ← scopeMembers program closure.scope
    let bodyEnv ← change fun store ↦ store.concat matched.env closure.env
    let outcome ← evaluate bodyEnv body demand
    explain address
      (.application function matched.node members matched.inspected outcome.node)
      outcome.node outcome
  | other => throw (.demandMismatch "function" other.kind)

/-- What applying a primitive to an operand with the value `right` gives. -/
def compute (function operand : NodeId) (right : Value) :
    PrimitiveValue → EvaluatingBeside Memory Knowledge
  | .unary op => do
    let value ← MonadExcept.ofExcept (op.apply right)
    pure (.of (.unary function operand) value)
  | .binary op => pure (.of (.unary function operand) (.primitive (.partially op operand)))
  | .partially op first => do
    let left ← knownValue first
    let value ← MonadExcept.ofExcept (op.apply left right)
    pure (.of (.binary function first op operand) value)

def applyPrimitive (env : EnvId) (address : Address) (function : NodeId)
    (primitive : PrimitiveValue) (argument : ExprId) (demand : DemandId) :
    EvaluatingBeside Memory Outcome := do
  let operand ← evaluate env argument primitive.operand.demand
  let right ← knownValue operand.node
  let knowledge ← compute function operand.node right primitive
  let node ← perform (Store.write address knowledge)
  Matching.node program reach evaluate node demand

def apply (env : EnvId) (address : Address) (function argument : ExprId) (demand : DemandId) :
    EvaluatingBeside Memory Outcome := do
  let applied ← evaluate env function .function
  match ← inspect fun store ↦ store.value? applied.node with
  | some (.closure closure) =>
    applyClosure program evaluate env address applied.node closure argument demand
  | some (.primitive primitive) =>
    applyPrimitive program reach evaluate env address applied.node primitive argument demand
  | some value => throw (.demandMismatch "function" (value.describe program.symbols))
  | none => throw (.demandMismatch "function" "nothing")

/-- Arguments are registered in order and stay unevaluated. -/
def registerAll (env : EnvId) : List ExprId → EvaluatingBeside Memory (List NodeId)
  | [] => pure []
  | arg :: args => do
    let node ← change fun store ↦ store.register (.evaluation env arg)
    let nodes ← registerAll env args
    pure (node :: nodes)

def construct (env : EnvId) (address : Address) (tag : Symbol) (args : List ExprId)
    (demand : DemandId) : EvaluatingBeside Memory Outcome := do
  match program.constructor? tag with
  | none => throw (.unknownConstructor (program.name tag))
  | some constructor =>
    if constructor.arity = args.length then
      let nodes ← registerAll env args
      given program reach evaluate address (.constructor tag nodes) demand
    else
      throw (.arityMismatch (program.name tag) constructor.arity args.length)

/-- The environment after a sequence of definitions, and how each of them entered it. -/
def define (env : EnvId) :
    List Definition → EvaluatingBeside Memory (EnvId × List DefinitionExplanation)
  | [] => pure (env, [])
  | .value name bound :: rest => do
    let node ← change fun store ↦ store.register (.evaluation env bound)
    let inner ← change fun store ↦ store.extend env name (.node node)
    let (final, explanations) ← define inner rest
    pure (final, .value name node :: explanations)
  | .primitive name op :: rest => do
    match Primitive.ofName? (program.name op) with
    | none => throw (.nameNotFound (program.name op))
    | some primitive =>
      let node ← perform (Store.primitive primitive)
      let inner ← change fun store ↦ store.extend env name (.node node)
      let (final, explanations) ← define inner rest
      pure (final, .primitive name node :: explanations)
  | .group group :: rest => do
    let scope : Scope := ⟨env, group⟩
    let members ← closeMembers program scope
    let inner ← closeGroup program scope
    let (final, explanations) ← define inner rest
    pure (final, .group members :: explanations)

/-- Evaluates by the rule for the form of the expression. -/
def byForm (form : Expr) (env : EnvId) (expr : ExprId) (demand : DemandId) :
    EvaluatingBeside Memory Outcome :=
  let address : Address := .evaluation env expr
  match form with
  | .number value => given program reach evaluate address (.number value) demand
  | .text value => given program reach evaluate address (.text value) demand
  | .constructor tag args => construct program reach evaluate env address tag args demand
  | .function _ => given program reach evaluate address (.closure ⟨env, expr, none⟩) demand
  | .var name => lookup program reach evaluate env address name demand
  | .op name => lookup program reach evaluate env address name demand
  | .app function argument => apply program reach evaluate env address function argument demand
  | .letIn name bound body => do
    let node ← change fun store ↦ store.register (.evaluation env bound)
    let inner ← change fun store ↦ store.extend env name (.node node)
    let outcome ← evaluate inner body demand
    explain address (.letIn name node outcome.node) outcome.node outcome
  | .letRec group body => do
    let scope : Scope := ⟨env, group⟩
    let members ← closeMembers program scope
    let inner ← closeGroup program scope
    let outcome ← evaluate inner body demand
    explain address (.letRec members outcome.node) outcome.node outcome
  | .matching scrutinee cases => do
    let matched ← evaluate env scrutinee cases
    let body ← bodyOf program matched cases
    let inner ← change fun store ↦ store.concat matched.env env
    let outcome ← evaluate inner body demand
    explain address (.matching matched.node matched.inspected outcome.node) outcome.node outcome
  | .defs definitions body => do
    let (inner, explanations) ← define program env definitions
    let outcome ← evaluate inner body demand
    explain address (.defs explanations outcome.node) outcome.node outcome

/-- A demand that only binds leaves the expression unevaluated. -/
def step (env : EnvId) (expr : ExprId) (demand : DemandId) : EvaluatingBeside Memory Outcome :=
  match program.demand demand with
  | .bind name next => do
    let node ← change fun store ↦ store.register (.evaluation env expr)
    Matching.bind node name next
  | _ => byForm program reach evaluate (program.expr expr) env expr demand

end Whence.Rules
