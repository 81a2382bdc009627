import Whence.Evaluation.Rules
import Whence.Proofs.RootStore

/-!
# Derivations on a store

What the rules of evaluation say about a store that has all it needs already.  `Settles` says what
a match comes to, `Rule` which knowledge the rule for the form of an expression gives, and `Holds`
that the knowledge about a node goes back, rule by rule, to literals and inputs.  The predicate
`allowed` of the first two says which nodes they may look at.  All three persist when the store
grows, and a store determines what they say.
-/

namespace Whence

namespace Demand

/-- What follows if the demand looks at the kind of the value only and the kind is right. -/
def accepts? : Demand → Value → Option Next
  | .number next, .number _ => some next
  | .text next, .text _ => some next
  | .function next, .closure _ => some next
  | .function next, .primitive _ => some next
  | _, _ => none

end Demand

namespace Value

/-- The parts that forcing a value reaches. -/
def parts : Value → List NodeId
  | .constructor _ args => args
  | _ => []

end Value

/-- The node has a value to the bottom. -/
inductive Forced (store : Store) (allowed : NodeId → Prop) : NodeId → Prop
  | intro {node : NodeId} {value : Value} : allowed node → store.value? node = some value →
      (∀ part ∈ value.parts, Forced store allowed part) → Forced store allowed node

namespace Outcome

/-- The outcome after one more argument has been matched, with `env` for all that is bound. -/
def advance (program : Program) (outcome : Outcome) (arg : NodeId) (demand : DemandId)
    (matched : Outcome) (env : EnvId) : Outcome :=
  ⟨outcome.node, env, matched.next,
    outcome.inspected ++ (if (program.demand demand).isBind then [] else [arg]) ++
      matched.inspected⟩

@[simp] theorem plain_node (node : NodeId) (next : Next) : (plain node next).node = node := rfl

@[simp] theorem plain_env (node : NodeId) (next : Next) : (plain node next).env = .empty := rfl

@[simp] theorem plain_next (node : NodeId) (next : Next) : (plain node next).next = next := rfl

@[simp] theorem advance_node (program : Program) (outcome : Outcome) (arg : NodeId)
    (demand : DemandId) (matched : Outcome) (env : EnvId) :
    (outcome.advance program arg demand matched env).node = outcome.node := rfl

@[simp] theorem advance_env (program : Program) (outcome : Outcome) (arg : NodeId)
    (demand : DemandId) (matched : Outcome) (env : EnvId) :
    (outcome.advance program arg demand matched env).env = env := rfl

@[simp] theorem advance_next (program : Program) (outcome : Outcome) (arg : NodeId)
    (demand : DemandId) (matched : Outcome) (env : EnvId) :
    (outcome.advance program arg demand matched env).next = matched.next := rfl

end Outcome

mutual

/-- Matching the node against the demand comes to the outcome and evaluates nothing. -/
inductive Settles (program : Program) (store : Store) (allowed : NodeId → Prop) :
    NodeId → DemandId → Outcome → Prop
  | bind {node : NodeId} {demand : DemandId} {name : Symbol} {next : Next} {env : EnvId} :
      program.demand demand = .bind name next → store.envs.Contains env →
      store.envs.entries env = [(name, .node node)] →
      Settles program store allowed node demand ⟨node, env, next, []⟩
  | everything {node : NodeId} {demand : DemandId} {next : Next} :
      program.demand demand = .everything next → Forced store allowed node →
      Settles program store allowed node demand (.plain node next)
  | kind {node : NodeId} {demand : DemandId} {value : Value} {next : Next} :
      allowed node → store.value? node = some value →
      (program.demand demand).accepts? value = some next →
      Settles program store allowed node demand (.plain node next)
  | constructor {node : NodeId} {demand : DemandId} {cases : List (Symbol × Next)} {tag : Symbol}
      {args : List NodeId} {next : Next} {outcome : Outcome} :
      program.demand demand = .constructor cases → allowed node →
      store.value? node = some (.constructor tag args) → cases.lookup tag = some next →
      SettlesArgs program store allowed (.plain node next) args outcome →
      Settles program store allowed node demand outcome

/-- The same for constructor arguments, after the first outcome has been reached. -/
inductive SettlesArgs (program : Program) (store : Store) (allowed : NodeId → Prop) :
    Outcome → List NodeId → Outcome → Prop
  | nil {outcome : Outcome} : SettlesArgs program store allowed outcome [] outcome
  | cons {outcome matched final : Outcome} {arg : NodeId} {args : List NodeId} {demand : DemandId}
      {env : EnvId} :
      outcome.next = .demand demand → Settles program store allowed arg demand matched →
      store.envs.Contains env →
      store.envs.entries env = store.envs.entries matched.env ++ store.envs.entries outcome.env →
      SettlesArgs program store allowed (outcome.advance program arg demand matched env) args final →
      SettlesArgs program store allowed outcome (arg :: args) final

end

/-- A recursive binding for each entry of the group of a scope. -/
def Program.recursiveBindings (program : Program) (scope : Scope) : List (Symbol × Binding) :=
  (program.group scope.group).entries.zipIdx.map fun (entry, position) ↦
    (entry.name, Binding.recursive scope position)

/-- The environment binds the entries of the group over the environment around the group. -/
structure Closes (program : Program) (store : Store) (scope : Scope) (env : EnvId) : Prop where
  outer : store.envs.Contains scope.env
  contains : store.envs.Contains env
  entries : store.envs.entries env =
    (program.recursiveBindings scope).reverse ++ store.envs.entries scope.env

/-- The node holds the closure of a function of the group. -/
structure HoldsClosure (store : Store) (scope : Scope) (env : EnvId) (function : ExprId)
    (node : NodeId) : Prop where
  lookup : store.lookup? (.evaluation env function) = some node
  knowledge : store.knowledge? node = some (.of .given (.closure ⟨env, function, some scope⟩))

/-- The closures of the entries of a group, in order. -/
inductive HoldsClosures (store : Store) (scope : Scope) (env : EnvId) :
    List GroupEntry → List Member → Prop
  | nil : HoldsClosures store scope env [] []
  | cons {entry : GroupEntry} {entries : List GroupEntry} {node : NodeId} {members : List Member} :
      HoldsClosure store scope env entry.function node →
      HoldsClosures store scope env entries members →
      HoldsClosures store scope env (entry :: entries) (⟨entry.name, node⟩ :: members)

/-- All closures of the group of a scope are known. -/
def Members (program : Program) (store : Store) (scope : Scope) (env : EnvId)
    (members : List Member) : Prop :=
  Closes program store scope env ∧
    HoldsClosures store scope env (program.group scope.group).entries members

/-- The members that an application of a closure records. -/
def ScopeMembers (program : Program) (store : Store) (members : List Member) :
    Option Scope → Prop
  | none => members = []
  | some scope => ∃ env, Members program store scope env members

/-- The function literal is a definition of the group that the environment closes. -/
def IsMember (program : Program) (store : Store) (env : EnvId) (function : ExprId)
    (scope : Scope) : Prop :=
  Closes program store scope env ∧
    ∃ entry ∈ (program.group scope.group).entries, entry.function = function

/-- The group from which the closure of a function literal is made. -/
def ScopeOf (program : Program) (store : Store) (env : EnvId) (function : ExprId) :
    Option Scope → Prop
  | none => ∀ scope, ¬IsMember program store env function scope
  | some scope => IsMember program store env function scope

/-- The node to which a name leads. -/
inductive Resolves (program : Program) (store : Store) : Binding → NodeId → Prop
  | node {node : NodeId} : Resolves program store (.node node) node
  | recursive {scope : Scope} {position : Nat} {entry : GroupEntry} {env : EnvId} {node : NodeId} :
      (program.group scope.group).entries[position]? = some entry →
      Closes program store scope env → HoldsClosure store scope env entry.function node →
      Resolves program store (.recursive scope position) node

/-- What a sequence of definitions makes of an environment. -/
inductive Defines (program : Program) (store : Store) :
    EnvId → List Definition → EnvId → List DefinitionExplanation → Prop
  | nil {env : EnvId} : Defines program store env [] env []
  | value {env inner final : EnvId} {name : Symbol} {bound : ExprId} {node : NodeId}
      {rest : List Definition} {explanations : List DefinitionExplanation} :
      store.lookup? (.evaluation env bound) = some node → store.envs.Contains inner →
      store.envs.entries inner = (name, .node node) :: store.envs.entries env →
      Defines program store inner rest final explanations →
      Defines program store env (.value name bound :: rest) final (.value name node :: explanations)
  | primitive {env inner final : EnvId} {name op : Symbol} {primitive : Primitive} {node : NodeId}
      {rest : List Definition} {explanations : List DefinitionExplanation} :
      Primitive.ofName? (program.name op) = some primitive →
      store.library.lookup primitive = some node → store.envs.Contains inner →
      store.envs.entries inner = (name, .node node) :: store.envs.entries env →
      Defines program store inner rest final explanations →
      Defines program store env (.primitive name op :: rest) final
        (.primitive name node :: explanations)
  | group {env inner final : EnvId} {group : GroupId} {members : List Member}
      {rest : List Definition} {explanations : List DefinitionExplanation} :
      Members program store ⟨env, group⟩ inner members →
      Defines program store inner rest final explanations →
      Defines program store env (.group group :: rest) final (.group members :: explanations)

/-! ## Rules -/

/-- The node of the expression in the environment has the value. -/
structure Evaluated (store : Store) (allowed : NodeId → Prop) (env : EnvId) (expr : ExprId)
    (node : NodeId) (value : Value) : Prop where
  lookup : store.lookup? (.evaluation env expr) = some node
  allowed : allowed node
  value : store.value? node = some value

/-- The nodes of the arguments of a constructor. -/
def Registered (store : Store) (env : EnvId) (args : List ExprId) (nodes : List NodeId) : Prop :=
  args.map (fun arg ↦ store.lookup? (.evaluation env arg)) = nodes.map some

/-- What applying a primitive to an operand gives. -/
inductive Computes (store : Store) (allowed : NodeId → Prop) (function operand : NodeId)
    (right : Value) : PrimitiveValue → Explanation → Value → Prop
  | unary {op : UnaryOp} {value : Value} : op.apply right = .ok value →
      Computes store allowed function operand right (.unary op) (.unary function operand) value
  | binary {op : BinaryOp} :
      Computes store allowed function operand right (.binary op) (.unary function operand)
        (.primitive (.partially op operand))
  | partially {op : BinaryOp} {first : NodeId} {left value : Value} :
      allowed first → store.value? first = some left → op.apply left right = .ok value →
      Computes store allowed function operand right (.partially op first)
        (.binary function first op operand) value

/-- The rule for a form of expression explains and gives a value. -/
inductive Rule (program : Program) (store : Store) (allowed : NodeId → Prop) (env : EnvId)
    (expr : ExprId) : Expr → Explanation → Value → Prop
  | number {value : Number} :
      Rule program store allowed env expr (.number value) .given (.number value)
  | text {value : String} :
      Rule program store allowed env expr (.text value) .given (.text value)
  | constructor {tag : Symbol} {args : List ExprId} {constructor : Constructor}
      {nodes : List NodeId} :
      program.constructor? tag = some constructor → constructor.arity = args.length →
      Registered store env args nodes →
      Rule program store allowed env expr (.constructor tag args) .given (.constructor tag nodes)
  | function {demand : DemandId} {scope : Option Scope} :
      ScopeOf program store env expr scope →
      Rule program store allowed env expr (.function demand) .given (.closure ⟨env, expr, scope⟩)
  | var {name : Symbol} {binding : Binding} {target : NodeId} {value : Value} :
      store.envs.get? env name = some binding → Resolves program store binding target →
      allowed target → store.value? target = some value →
      Rule program store allowed env expr (.var name) (.lookup name target) value
  | op {name : Symbol} {binding : Binding} {target : NodeId} {value : Value} :
      store.envs.get? env name = some binding → Resolves program store binding target →
      allowed target → store.value? target = some value →
      Rule program store allowed env expr (.op name) (.lookup name target) value
  | closure {function argument body : ExprId} {applied operand result : NodeId} {closure : Closure}
      {parameter : DemandId} {matched : Outcome} {members : List Member} {inner : EnvId}
      {value : Value} :
      Evaluated store allowed env function applied (.closure closure) →
      program.expr closure.function = .function parameter →
      store.lookup? (.evaluation env argument) = some operand →
      Settles program store allowed operand parameter matched → matched.next = .body body →
      ScopeMembers program store members closure.scope → store.envs.Contains closure.env →
      store.envs.Contains inner →
      store.envs.entries inner =
        store.envs.entries matched.env ++ store.envs.entries closure.env →
      Evaluated store allowed inner body result value →
      Rule program store allowed env expr (.app function argument)
        (.application applied operand members matched.inspected result) value
  | primitive {function argument : ExprId} {applied operand : NodeId} {primitive : PrimitiveValue}
      {right value : Value} {next : Next} {explanation : Explanation} :
      Evaluated store allowed env function applied (.primitive primitive) →
      Evaluated store allowed env argument operand right →
      (program.demand primitive.operand.demand).accepts? right = some next →
      Computes store allowed applied operand right primitive explanation value →
      Rule program store allowed env expr (.app function argument) explanation value
  | letIn {name : Symbol} {bound body : ExprId} {node result : NodeId} {inner : EnvId}
      {value : Value} :
      store.lookup? (.evaluation env bound) = some node → store.envs.Contains inner →
      store.envs.entries inner = (name, .node node) :: store.envs.entries env →
      Evaluated store allowed inner body result value →
      Rule program store allowed env expr (.letIn name bound body) (.letIn name node result) value
  | letRec {group : GroupId} {body : ExprId} {members : List Member} {inner : EnvId}
      {result : NodeId} {value : Value} :
      Members program store ⟨env, group⟩ inner members →
      Evaluated store allowed inner body result value →
      Rule program store allowed env expr (.letRec group body) (.letRec members result) value
  | matching {scrutinee body : ExprId} {cases : DemandId} {operand result : NodeId}
      {matched : Outcome} {inner : EnvId} {value : Value} :
      store.lookup? (.evaluation env scrutinee) = some operand →
      Settles program store allowed operand cases matched → matched.next = .body body →
      store.envs.Contains inner →
      store.envs.entries inner = store.envs.entries matched.env ++ store.envs.entries env →
      Evaluated store allowed inner body result value →
      Rule program store allowed env expr (.matching scrutinee cases)
        (.matching operand matched.inspected result) value
  | defs {definitions : List Definition} {body : ExprId} {inner : EnvId}
      {explanations : List DefinitionExplanation} {result : NodeId} {value : Value} :
      Defines program store env definitions inner explanations →
      Evaluated store allowed inner body result value →
      Rule program store allowed env expr (.defs definitions body) (.defs explanations result) value

/-- The knowledge about the node comes from outside the program or from a rule, and so does the
knowledge about all nodes that the rule looks at. -/
inductive Holds (program : Program) (store : Store) : NodeId → Prop
  | input {node source : NodeId} : store.Contains node → store.address node = .input source →
      Holds program store node
  | evaluation {node : NodeId} {env : EnvId} {expr : ExprId} {explanation : Explanation}
      {value : Value} (allowed : NodeId → Prop) :
      store.address node = .evaluation env expr →
      store.knowledge? node = some (.of explanation value) →
      Rule program store allowed env expr (program.expr expr) explanation value →
      (∀ source, allowed source → Holds program store source) → Holds program store node

end Whence
