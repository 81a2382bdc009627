import Whence.Evaluation.Basic

/-!
# Judgements on evaluations

The rules treat evaluation, the store and the outcomes they are given in the same way whatever these
are, and never look at the memory.  So two evaluations of one expression, by evaluators that a
judgement relates, are related by it as well, and their memories may differ in kind.  The rules are
gone through here, once for all judgements.  A judgement comes with a condition on the common result,
since what follows a demand decides what is demanded next.
-/

namespace Whence

variable {α β Memory Memory' : Type}

/-- The error of a match that gives up its descent. -/
def Error.isBottomless : Error → Bool
  | .bottomless _ => true
  | _ => false

/-- The error of an evaluation that nests too deeply. -/
def Error.isExceeded : Error → Bool
  | .depthExceeded _ => true
  | _ => false

/-- What a primitive finds wrong with its operand is no failure of a match. -/
theorem UnaryOp.apply_error_isBottomless {op : UnaryOp} {value : Value} {error : Error}
    (happly : op.apply value = .error error) : error.isBottomless = false := by
  cases op <;> cases value <;> cases happly <;> rfl

theorem BinaryOp.apply_error_isBottomless {op : BinaryOp} {left right : Value} {error : Error}
    (happly : op.apply left right = .error error) : error.isBottomless = false := by
  unfold BinaryOp.apply at happly
  split at happly <;> cases left <;> cases right <;> cases happly <;> rfl

/-- The judgement holds of computations that are made of the same parts in the same order, if it
holds of the parts.  It holds of whatever the rules do to a store, where inputs are never written,
and of all failures but those of a match that gives up its descent. -/
structure Parametric (judges : ∀ {α : Type},
    EvaluatingBeside Memory α → EvaluatingBeside Memory' α → (α → Prop) → Prop) : Prop where
  of_pure : ∀ {α : Type} {result : α} {holds : α → Prop}, holds result →
    judges (pure result) (pure result) holds
  of_throw : ∀ {α : Type} {error : Error} {holds : α → Prop}, error.isBottomless = false →
    judges (throw error) (throw error) holds
  bind : ∀ {α β : Type} {computation : EvaluatingBeside Memory α}
    {computation' : EvaluatingBeside Memory' α} {next : α → EvaluatingBeside Memory β}
    {next' : α → EvaluatingBeside Memory' β} {between : α → Prop} {holds : β → Prop},
    judges computation computation' between →
    (∀ result, between result → judges (next result) (next' result) holds) →
    judges (computation >>= next) (computation' >>= next') holds
  value : ∀ node : NodeId, judges (Machine.inspect fun store ↦ store.value? node)
    (Machine.inspect fun store ↦ store.value? node) fun _ ↦ True
  address : ∀ node : NodeId, judges (Machine.inspect fun store ↦ store.address node)
    (Machine.inspect fun store ↦ store.address node) fun _ ↦ True
  binding : ∀ (env : EnvId) (name : Symbol),
    judges (Machine.inspect fun store ↦ store.envs.get? env name)
      (Machine.inspect fun store ↦ store.envs.get? env name) fun _ ↦ True
  register : ∀ (env : EnvId) (expr : ExprId),
    judges (Machine.change fun store ↦ store.register (.evaluation env expr))
      (Machine.change fun store ↦ store.register (.evaluation env expr)) fun _ ↦ True
  extend : ∀ (env : EnvId) (name : Symbol) (binding : Binding),
    judges (Machine.change fun store ↦ store.extend env name binding)
      (Machine.change fun store ↦ store.extend env name binding) fun _ ↦ True
  concat : ∀ inner outer : EnvId, judges (Machine.change fun store ↦ store.concat inner outer)
    (Machine.change fun store ↦ store.concat inner outer) fun _ ↦ True
  extendAll : ∀ (env : EnvId) (bindings : List (Symbol × Binding)),
    judges
      (Machine.change fun store ↦
        ((store.envs.extendAll env bindings).1,
          { store with envs := (store.envs.extendAll env bindings).2 }))
      (Machine.change fun store ↦
        ((store.envs.extendAll env bindings).1,
          { store with envs := (store.envs.extendAll env bindings).2 })) fun _ ↦ True
  write : ∀ (env : EnvId) (expr : ExprId) (knowledge : Knowledge),
    judges (Machine.perform (Store.write (.evaluation env expr) knowledge))
      (Machine.perform (Store.write (.evaluation env expr) knowledge)) fun _ ↦ True
  primitive : ∀ primitive : Primitive, judges (Machine.perform (Store.primitive primitive))
    (Machine.perform (Store.primitive primitive)) fun _ ↦ True

/-- Which demands are made, and what follows them.  What the program asks for itself may be demanded;
what follows a demand is one of its continuations, or follows a demand among them. -/
structure Program.Guides (program : Program) (allowed : DemandId → Prop)
    (follows : DemandId → Next → Prop) : Prop where
  function : allowed .function
  operand : ∀ primitive : PrimitiveValue, allowed primitive.operand.demand
  parameter : ∀ {expr demand}, program.expr expr = .function demand → allowed demand
  cases : ∀ {expr scrutinee demand}, program.expr expr = .matching scrutinee demand →
    allowed demand
  next : ∀ {demand following}, allowed demand →
    (program.demand demand).next? = some following → follows demand following
  case : ∀ {demand tag following}, allowed demand →
    (program.demand demand).case? tag = some following → follows demand following
  parts : ∀ {demand following}, allowed demand →
    program.demand demand = .everything following → follows demand (.demand .everything)
  allowed : ∀ {demand following}, allowed demand → follows demand (.demand following) →
    allowed following
  trans : ∀ {demand middle following}, follows demand (.demand middle) →
    follows middle following → follows demand following

/-- Nothing need be known of the demands. -/
theorem Program.Guides.trivial (program : Program) :
    program.Guides (fun _ ↦ True) fun _ _ ↦ True := by
  constructor <;> intros <;> trivial

namespace Parametric

variable {judges : ∀ {α : Type},
    EvaluatingBeside Memory α → EvaluatingBeside Memory' α → (α → Prop) → Prop}
  {program : Program} {evaluate : EvaluatorBeside Memory} {evaluate' : EvaluatorBeside Memory'}

section Parts

variable (hjudges : Parametric @judges)
include hjudges

theorem mono {computation : EvaluatingBeside Memory α}
    {computation' : EvaluatingBeside Memory' α} {holds holds' : α → Prop}
    (hcomputation : judges computation computation' holds)
    (hholds : ∀ result, holds result → holds' result) : judges computation computation' holds' := by
  rw [← bind_pure computation, ← bind_pure computation']
  exact hjudges.bind hcomputation fun result hresult ↦ hjudges.of_pure (hholds result hresult)

theorem of_except {result : Except Error α}
    (hresult : ∀ {error}, result = .error error → error.isBottomless = false) :
    judges (MonadExcept.ofExcept result) (MonadExcept.ofExcept result) fun _ ↦ True := by
  cases result with
  | ok result => exact hjudges.of_pure trivial
  | error error => exact hjudges.of_throw (hresult rfl)

theorem mapM {action : α → EvaluatingBeside Memory β} {action' : α → EvaluatingBeside Memory' β}
    (haction : ∀ item, judges (action item) (action' item) fun _ ↦ True) (items : List α) :
    judges (items.mapM action) (items.mapM action') fun _ ↦ True := by
  induction items with
  | nil => exact hjudges.of_pure trivial
  | cons item items ih =>
    rw [List.mapM_cons, List.mapM_cons]
    exact hjudges.bind (haction item) fun _ _ ↦ hjudges.bind ih fun _ _ ↦ hjudges.of_pure trivial

theorem matchBind (node : NodeId) (name : Symbol) (next : Next) :
    judges (Matching.bind node name next) (Matching.bind node name next)
      fun outcome ↦ outcome.next = next :=
  hjudges.bind (hjudges.extend .empty name (.node node)) fun _ _ ↦ hjudges.of_pure rfl

theorem explain (env : EnvId) (expr : ExprId) (explanation : Explanation) (source : NodeId)
    {outcome : Outcome} {holds : Next → Prop} (hholds : holds outcome.next) :
    judges (Rules.explain (.evaluation env expr) explanation source outcome)
      (Rules.explain (.evaluation env expr) explanation source outcome)
      fun outcome ↦ holds outcome.next :=
  hjudges.bind (hjudges.value source) fun _ _ ↦
    hjudges.bind (hjudges.write env expr _) fun _ _ ↦ hjudges.of_pure hholds

theorem bodyOf (outcome : Outcome) (demand : DemandId) :
    judges (Rules.bodyOf program outcome demand) (Rules.bodyOf program outcome demand)
      fun _ ↦ True := by
  unfold Rules.bodyOf
  split
  · exact hjudges.of_pure trivial
  · exact hjudges.of_throw rfl

theorem knownValue (node : NodeId) :
    judges (Rules.knownValue node) (Rules.knownValue node) fun _ ↦ True := by
  refine hjudges.bind (hjudges.value node) fun value _ ↦ ?_
  cases value with
  | some value => exact hjudges.of_pure trivial
  | none => exact hjudges.bind (hjudges.address node) fun _ _ ↦ hjudges.of_throw rfl

theorem closeGroup (scope : Scope) :
    judges (Rules.closeGroup program scope) (Rules.closeGroup program scope) fun _ ↦ True :=
  hjudges.extendAll scope.env _

theorem closeEntry (scope : Scope) (entry : GroupEntry) :
    judges (Rules.closeEntry program scope entry) (Rules.closeEntry program scope entry)
      fun _ ↦ True :=
  hjudges.bind (hjudges.closeGroup scope) fun _ _ ↦ hjudges.write _ _ _

theorem closeMembers (scope : Scope) :
    judges (Rules.closeMembers program scope) (Rules.closeMembers program scope) fun _ ↦ True :=
  hjudges.mapM (fun entry ↦ hjudges.bind (hjudges.closeEntry scope entry) fun _ _ ↦
    hjudges.of_pure trivial) _

theorem resolve (name : Symbol) (binding : Binding) :
    judges (Rules.resolve program name binding) (Rules.resolve program name binding)
      fun _ ↦ True := by
  cases binding with
  | node id => exact hjudges.of_pure trivial
  | recursive scope position =>
    simp only [Rules.resolve]
    split
    · exact hjudges.closeEntry scope _
    · exact hjudges.of_throw rfl

theorem scopeMembers (scope : Option Scope) :
    judges (Rules.scopeMembers program scope) (Rules.scopeMembers program scope) fun _ ↦ True := by
  cases scope with
  | some scope => exact hjudges.closeMembers scope
  | none => exact hjudges.of_pure trivial

theorem compute (function operand : NodeId) (right : Value) (primitive : PrimitiveValue) :
    judges (Rules.compute function operand right primitive)
      (Rules.compute function operand right primitive) fun _ ↦ True := by
  cases primitive with
  | unary op =>
    exact hjudges.bind (hjudges.of_except UnaryOp.apply_error_isBottomless) fun _ _ ↦
      hjudges.of_pure trivial
  | binary op => exact hjudges.of_pure trivial
  | partially op first =>
    exact hjudges.bind (hjudges.knownValue first) fun left _ ↦
      hjudges.bind (hjudges.of_except BinaryOp.apply_error_isBottomless) fun _ _ ↦
        hjudges.of_pure trivial

theorem registerAll (env : EnvId) (args : List ExprId) :
    judges (Rules.registerAll env args) (Rules.registerAll env args) fun _ ↦ True := by
  induction args with
  | nil => exact hjudges.of_pure trivial
  | cons arg args ih =>
    exact hjudges.bind (hjudges.register env arg) fun _ _ ↦ hjudges.bind ih fun _ _ ↦
      hjudges.of_pure trivial

theorem define (env : EnvId) (definitions : List Definition) :
    judges (Rules.define program env definitions) (Rules.define program env definitions)
      fun _ ↦ True := by
  induction definitions generalizing env with
  | nil => exact hjudges.of_pure trivial
  | cons definition rest ih =>
    cases definition with
    | value name bound =>
      exact hjudges.bind (hjudges.register env bound) fun node _ ↦
        hjudges.bind (hjudges.extend env name (.node node)) fun inner _ ↦
        hjudges.bind (ih inner) fun _ _ ↦ hjudges.of_pure trivial
    | primitive name op =>
      unfold Rules.define
      split
      · exact hjudges.of_throw rfl
      · exact hjudges.bind (hjudges.primitive _) fun node _ ↦
          hjudges.bind (hjudges.extend env name (.node node)) fun inner _ ↦
          hjudges.bind (ih inner) fun _ _ ↦ hjudges.of_pure trivial
    | group group =>
      exact hjudges.bind (hjudges.closeMembers ⟨env, group⟩) fun members _ ↦
        hjudges.bind (hjudges.closeGroup ⟨env, group⟩) fun inner _ ↦
        hjudges.bind (ih inner) fun _ _ ↦ hjudges.of_pure trivial

end Parts

variable {allowed : DemandId → Prop} {follows : DemandId → Next → Prop}

/-! ## Matching -/

section Matching

variable (hjudges : Parametric @judges) (hguides : program.Guides allowed follows)
  {matchOne : NodeId → DemandId → EvaluatingBeside Memory Outcome}
  {matchOne' : NodeId → DemandId → EvaluatingBeside Memory' Outcome} {demand : DemandId}
  (hmatch : ∀ node following, follows demand (.demand following) →
    judges (matchOne node following) (matchOne' node following)
      fun outcome ↦ follows following outcome.next)

include hjudges in
theorem forceAll {force : NodeId → EvaluatingBeside Memory Outcome}
    {force' : NodeId → EvaluatingBeside Memory' Outcome} {holds : Outcome → Prop}
    (hforce : ∀ node, judges (force node) (force' node) holds) (args : List NodeId) :
    judges (Matching.forceAll force args) (Matching.forceAll force' args) fun _ ↦ True := by
  induction args with
  | nil => exact hjudges.of_pure trivial
  | cons arg args ih => exact hjudges.bind (hforce arg) fun _ _ ↦ ih

include hjudges hguides hmatch

theorem arguments (count : Nat) {outcome : Outcome} (houtcome : follows demand outcome.next)
    (args : List NodeId) :
    judges (Matching.arguments program count matchOne outcome args)
      (Matching.arguments program count matchOne' outcome args)
      fun outcome ↦ follows demand outcome.next := by
  induction args generalizing outcome with
  | nil => exact hjudges.of_pure houtcome
  | cons arg args ih =>
    unfold Matching.arguments
    split
    case h_1 following hnext =>
      rw [hnext] at houtcome
      exact hjudges.bind (hmatch arg following houtcome) fun matched hmatched ↦
        hjudges.bind (hjudges.concat matched.env outcome.env) fun _ _ ↦
        ih (hguides.trans houtcome hmatched)
    case h_2 => exact hjudges.of_throw rfl

theorem matchValue (hdemand : allowed demand) (node : NodeId) (value : Value) :
    judges (Matching.value program matchOne node demand value)
      (Matching.value program matchOne' node demand value)
      fun outcome ↦ follows demand outcome.next := by
  have hplain : ∀ {following}, (program.demand demand).next? = some following →
      judges (pure (Outcome.plain node following)) (pure (Outcome.plain node following))
        fun outcome ↦ follows demand outcome.next :=
    fun hnext ↦ hjudges.of_pure (hguides.next hdemand hnext)
  unfold Matching.value
  split
  case h_1 hlayer =>
    have hforce := fun arg ↦ hmatch arg .everything (hguides.parts hdemand hlayer)
    exact hjudges.bind (hjudges.forceAll hforce _) fun _ _ ↦ hplain (by rw [hlayer]; rfl)
  case h_2 hlayer _ => exact hplain (by rw [hlayer]; rfl)
  case h_3 hlayer => exact hplain (by rw [hlayer]; rfl)
  case h_4 hlayer => exact hplain (by rw [hlayer]; rfl)
  case h_5 hlayer => exact hplain (by rw [hlayer]; rfl)
  case h_6 hlayer => exact hplain (by rw [hlayer]; rfl)
  case h_7 args hlayer =>
    split
    case h_1 following hlookup =>
      exact hjudges.arguments hguides hmatch _
        (hguides.case hdemand (by rw [hlayer]; exact hlookup)) args
    case h_2 => exact hjudges.of_throw rfl
  case h_8 => exact hjudges.of_throw rfl

end Matching

section Rules

variable (hjudges : Parametric @judges) (hguides : program.Guides allowed follows)
include hjudges hguides

/-- One more step of a descent: what follows the demand is matched with the steps that are left. -/
theorem within_succ {steps steps' : Nat} {demand : DemandId} (hdemand : allowed demand)
    (hevaluate : ∀ env expr, judges (evaluate env expr demand) (evaluate' env expr demand)
      fun outcome ↦ follows demand outcome.next)
    (hmatch : ∀ node following, follows demand (.demand following) →
      judges (Matching.within program evaluate steps node following)
        (Matching.within program evaluate' steps' node following)
        fun outcome ↦ follows following outcome.next) (node : NodeId) :
    judges (Matching.within program evaluate (steps + 1) node demand)
      (Matching.within program evaluate' (steps' + 1) node demand)
      fun outcome ↦ follows demand outcome.next := by
  unfold Matching.within
  split
  case h_1 name next hlayer =>
    refine hjudges.mono (hjudges.matchBind node name next) fun outcome hnext ↦ ?_
    rw [hnext]
    exact hguides.next hdemand (by rw [hlayer]; rfl)
  case h_2 =>
    refine hjudges.bind (hjudges.value node) fun known _ ↦ ?_
    cases known with
    | some known => exact hjudges.matchValue hguides hmatch hdemand node known
    | none =>
      refine hjudges.bind (hjudges.address node) fun address _ ↦ ?_
      cases address with
      | evaluation env expr => exact hevaluate env expr
      | input _ => exact hjudges.of_throw rfl

/-- Matches that may give up their descent. -/
theorem within
    (hbottomless : ∀ {holds : Outcome → Prop} (node : NodeId),
      judges (throw (.bottomless node)) (throw (.bottomless node)) holds)
    (hevaluate : ∀ env expr demand, allowed demand →
      judges (evaluate env expr demand) (evaluate' env expr demand)
        fun outcome ↦ follows demand outcome.next)
    (steps : Nat) (node : NodeId) {demand : DemandId} (hdemand : allowed demand) :
    judges (Matching.within program evaluate steps node demand)
      (Matching.within program evaluate' steps node demand)
      fun outcome ↦ follows demand outcome.next := by
  induction steps generalizing node demand with
  | zero => exact hbottomless node
  | succ steps ih =>
    exact hjudges.within_succ hguides hdemand (fun env expr ↦ hevaluate env expr demand hdemand)
      (fun node following hfollows ↦ ih node (hguides.allowed hdemand hfollows)) node

/-- Matches in stores of the same size. -/
theorem matchNode
    (hsize : judges (Machine.inspect Store.size) (Machine.inspect Store.size) fun _ ↦ True)
    (hbottomless : ∀ {holds : Outcome → Prop} (node : NodeId),
      judges (throw (.bottomless node)) (throw (.bottomless node)) holds)
    (hevaluate : ∀ env expr demand, allowed demand →
      judges (evaluate env expr demand) (evaluate' env expr demand)
        fun outcome ↦ follows demand outcome.next)
    (reach : Nat) (node : NodeId) (demand : DemandId) (hdemand : allowed demand) :
    judges (Matching.node program reach evaluate node demand)
      (Matching.node program reach evaluate' node demand)
      fun outcome ↦ follows demand outcome.next :=
  hjudges.bind hsize fun _ _ ↦ hjudges.within hguides hbottomless hevaluate _ node hdemand

/-! ## The rules -/

variable {reach reach' : Nat}
  (hevaluate : ∀ env expr demand, allowed demand →
    judges (evaluate env expr demand) (evaluate' env expr demand)
      fun outcome ↦ follows demand outcome.next)
  (hmatch : ∀ node demand, allowed demand →
    judges (Matching.node program reach evaluate node demand)
      (Matching.node program reach' evaluate' node demand)
      fun outcome ↦ follows demand outcome.next)
  {demand : DemandId} (hdemand : allowed demand)

include hdemand

section Matching

include hmatch

omit hguides in
theorem given (env : EnvId) (expr : ExprId) (value : Value) :
    judges (Rules.given program reach evaluate (.evaluation env expr) value demand)
      (Rules.given program reach' evaluate' (.evaluation env expr) value demand)
      fun outcome ↦ follows demand outcome.next :=
  hjudges.bind (hjudges.write env expr _) fun node _ ↦ hmatch node demand hdemand

omit hguides in
theorem lookup (env : EnvId) (expr : ExprId) (name : Symbol) :
    judges (Rules.lookup program reach evaluate env (.evaluation env expr) name demand)
      (Rules.lookup program reach' evaluate' env (.evaluation env expr) name demand)
      fun outcome ↦ follows demand outcome.next := by
  refine hjudges.bind (hjudges.binding env name) fun binding _ ↦ ?_
  cases binding with
  | none => exact hjudges.of_throw rfl
  | some binding =>
    exact hjudges.bind (hjudges.resolve name binding) fun target _ ↦
      hjudges.bind (hmatch target demand hdemand) fun outcome houtcome ↦
      hjudges.explain env expr _ target houtcome

omit hguides in
theorem construct (env : EnvId) (expr : ExprId) (tag : Symbol) (args : List ExprId) :
    judges (Rules.construct program reach evaluate env (.evaluation env expr) tag args demand)
      (Rules.construct program reach' evaluate' env (.evaluation env expr) tag args demand)
      fun outcome ↦ follows demand outcome.next := by
  unfold Rules.construct
  split
  · exact hjudges.of_throw rfl
  · split
    · exact hjudges.bind (hjudges.registerAll env args) fun nodes _ ↦
        hjudges.given hmatch hdemand env expr _
    · exact hjudges.of_throw rfl

end Matching

include hevaluate in
theorem applyClosure (env : EnvId) (expr : ExprId) (function : NodeId) (closure : Closure)
    (argument : ExprId) :
    judges
      (Rules.applyClosure program evaluate env (.evaluation env expr) function closure argument
        demand)
      (Rules.applyClosure program evaluate' env (.evaluation env expr) function closure argument
        demand)
      fun outcome ↦ follows demand outcome.next := by
  unfold Rules.applyClosure
  split
  case h_1 parameter hfunction =>
    exact hjudges.bind (hevaluate env argument _ (hguides.parameter hfunction)) fun matched _ ↦
      hjudges.bind (hjudges.bodyOf matched _) fun body _ ↦
      hjudges.bind (hjudges.scopeMembers closure.scope) fun members _ ↦
      hjudges.bind (hjudges.concat matched.env closure.env) fun inner _ ↦
      hjudges.bind (hevaluate inner body demand hdemand) fun outcome houtcome ↦
      hjudges.explain env expr _ outcome.node houtcome
  case h_2 => exact hjudges.of_throw rfl

include hevaluate hmatch

theorem applyPrimitive (env : EnvId) (expr : ExprId) (function : NodeId)
    (primitive : PrimitiveValue) (argument : ExprId) :
    judges
      (Rules.applyPrimitive program reach evaluate env (.evaluation env expr) function primitive
        argument demand)
      (Rules.applyPrimitive program reach' evaluate' env (.evaluation env expr) function primitive
        argument demand)
      fun outcome ↦ follows demand outcome.next :=
  hjudges.bind (hevaluate env argument _ (hguides.operand primitive)) fun operand _ ↦
    hjudges.bind (hjudges.knownValue operand.node) fun right _ ↦
    hjudges.bind (hjudges.compute function operand.node right primitive) fun knowledge _ ↦
    hjudges.bind (hjudges.write env expr knowledge) fun node _ ↦ hmatch node demand hdemand

theorem apply (env : EnvId) (expr function argument : ExprId) :
    judges (Rules.apply program reach evaluate env (.evaluation env expr) function argument demand)
      (Rules.apply program reach' evaluate' env (.evaluation env expr) function argument demand)
      fun outcome ↦ follows demand outcome.next := by
  refine hjudges.bind (hevaluate env function .function hguides.function) fun applied _ ↦
    hjudges.bind (hjudges.value applied.node) fun value _ ↦ ?_
  split
  · exact hjudges.applyClosure hguides hevaluate hdemand env expr applied.node _ argument
  · exact hjudges.applyPrimitive hguides hevaluate hmatch hdemand env expr applied.node _ argument
  · exact hjudges.of_throw rfl
  · exact hjudges.of_throw rfl

theorem byForm (env : EnvId) (expr : ExprId) :
    judges (Rules.byForm program reach evaluate (program.expr expr) env expr demand)
      (Rules.byForm program reach' evaluate' (program.expr expr) env expr demand)
      fun outcome ↦ follows demand outcome.next := by
  cases hform : program.expr expr with
  | number value => exact hjudges.given hmatch hdemand env expr _
  | text value => exact hjudges.given hmatch hdemand env expr _
  | constructor tag args => exact hjudges.construct hmatch hdemand env expr tag args
  | function parameter => exact hjudges.given hmatch hdemand env expr _
  | var name => exact hjudges.lookup hmatch hdemand env expr name
  | op name => exact hjudges.lookup hmatch hdemand env expr name
  | app function argument =>
    exact hjudges.apply hguides hevaluate hmatch hdemand env expr function argument
  | letIn name bound body =>
    exact hjudges.bind (hjudges.register env bound) fun node _ ↦
      hjudges.bind (hjudges.extend env name (.node node)) fun inner _ ↦
      hjudges.bind (hevaluate inner body demand hdemand) fun outcome houtcome ↦
      hjudges.explain env expr _ outcome.node houtcome
  | letRec group body =>
    exact hjudges.bind (hjudges.closeMembers ⟨env, group⟩) fun members _ ↦
      hjudges.bind (hjudges.closeGroup ⟨env, group⟩) fun inner _ ↦
      hjudges.bind (hevaluate inner body demand hdemand) fun outcome houtcome ↦
      hjudges.explain env expr _ outcome.node houtcome
  | matching scrutinee cases =>
    exact hjudges.bind (hevaluate env scrutinee cases (hguides.cases hform)) fun matched _ ↦
      hjudges.bind (hjudges.bodyOf matched cases) fun body _ ↦
      hjudges.bind (hjudges.concat matched.env env) fun inner _ ↦
      hjudges.bind (hevaluate inner body demand hdemand) fun outcome houtcome ↦
      hjudges.explain env expr _ outcome.node houtcome
  | defs definitions body =>
    exact hjudges.bind (hjudges.define env definitions) fun defined _ ↦
      hjudges.bind (hevaluate defined.1 body demand hdemand) fun outcome houtcome ↦
      hjudges.explain env expr _ outcome.node houtcome

theorem step (env : EnvId) (expr : ExprId) :
    judges (Rules.step program reach evaluate env expr demand)
      (Rules.step program reach' evaluate' env expr demand)
      fun outcome ↦ follows demand outcome.next := by
  unfold Rules.step
  split
  case h_1 name next hlayer =>
    refine hjudges.bind (hjudges.register env expr) fun node _ ↦
      hjudges.mono (hjudges.matchBind node name next) fun outcome hnext ↦ ?_
    rw [hnext]
    exact hguides.next hdemand (by rw [hlayer]; rfl)
  case h_2 => exact hjudges.byForm hguides hevaluate hmatch hdemand env expr

end Rules

section Whole

variable {judges : ∀ {α : Type}, Evaluating α → Evaluating α → (α → Prop) → Prop}
  (hjudges : Parametric @judges)
include hjudges

theorem bindPrimitives (env : EnvId) (primitives : List Primitive) :
    judges (Evaluation.bindPrimitives program env primitives)
      (Evaluation.bindPrimitives program env primitives) fun _ ↦ True := by
  induction primitives generalizing env with
  | nil => exact hjudges.of_pure trivial
  | cons primitive rest ih =>
    unfold Evaluation.bindPrimitives
    split
    · exact hjudges.of_throw rfl
    · exact hjudges.bind (hjudges.primitive primitive) fun node _ ↦
        hjudges.bind (hjudges.extend env _ (.node node)) fun inner _ ↦ ih inner

/-- Evaluation as a whole, if matches and the memory respect the judgement. -/
theorem nested (hguides : program.Guides allowed follows)
    {settings settings' : Settings} (hdepth : settings'.maxDepth = settings.maxDepth)
    (hmemoized : ∀ {request : Request} {compute compute' : Evaluating Outcome},
      judges compute compute' (fun outcome ↦ follows request.demand outcome.next) →
      judges (Machine.memoized settings request compute) (Machine.memoized settings' request compute')
        fun outcome ↦ follows request.demand outcome.next)
    (hmatch : ∀ {evaluate evaluate' : Evaluator},
      (∀ env expr demand, allowed demand →
        judges (evaluate env expr demand) (evaluate' env expr demand)
          fun outcome ↦ follows demand outcome.next) →
      ∀ node demand, allowed demand →
        judges (Matching.node program settings.reach evaluate node demand)
          (Matching.node program settings'.reach evaluate' node demand)
          fun outcome ↦ follows demand outcome.next)
    (depth : Nat) (env : EnvId) (expr : ExprId) (demand : DemandId) (hdemand : allowed demand) :
    judges (Evaluation.nested program settings depth env expr demand)
      (Evaluation.nested program settings' depth env expr demand)
      fun outcome ↦ follows demand outcome.next := by
  induction depth generalizing env expr demand with
  | zero =>
    refine hmemoized ?_
    rw [hdepth]
    exact hjudges.of_throw rfl
  | succ depth ih => exact hmemoized (hjudges.step hguides ih (hmatch ih) hdemand env expr)

end Whole

end Parametric

end Whence
