import Whence.Proofs.Reference.Unfolding

/-!
# What is known agrees with the plain language

Wherever a store knows the value of a node, the interpreter computes what the value stands for from
the thunk that the node stands for.  The proof follows the derivation of what is known: each rule
does to values what the interpreter does to data.
-/

namespace Whence.Reference

variable {program : Program} {store : Store} {allowed : NodeId → Prop} {context : Context}

theorem ChainMeans.append {chain chain' : List (Symbol × Binding)} {context context' : Context} :
    ChainMeans store chain context → ChainMeans store chain' context' →
      ChainMeans store (chain ++ chain') (context ++ context')
  | .nil, hother => hother
  | .node hnode hchain, hother => .node hnode (hchain.append hother)
  | .recursive henv houter hchain, hother => .recursive henv houter (hchain.append hother)

inductive BindingMeans (store : Store) : Binding → Meaning → Prop
  | node {node : NodeId} {thunk : Thunk} : NodeMeans store node thunk →
      BindingMeans store (.node node) (.thunk thunk)
  | recursive {scope : Scope} {outer : Context} {position : Nat} : EnvMeans store scope.env outer →
      BindingMeans store (.recursive scope position) (.recursive outer scope.group position)

/-- A name is bound on both sides or on none. -/
theorem ChainMeans.lookup (name : Symbol) {chain : List (Symbol × Binding)} {context : Context}
    (hchain : ChainMeans store chain context) :
    (chain.lookup name = none ∧ context.lookup name = none) ∨
    ∃ binding meaning, chain.lookup name = some binding ∧ context.lookup name = some meaning ∧
      BindingMeans store binding meaning := by
  induction chain generalizing context with
  | nil =>
    cases hchain
    exact .inl ⟨rfl, rfl⟩
  | cons entry chain ih =>
    cases hchain with
    | @node other _ _ _ _ hnode hchain =>
      rw [List.lookup_cons, List.lookup_cons]
      cases name == other with
      | true => exact .inr ⟨_, _, rfl, rfl, .node hnode⟩
      | false => exact ih hchain
    | @recursive other _ _ _ _ _ henv houter hchain =>
      rw [List.lookup_cons, List.lookup_cons]
      cases name == other with
      | true => exact .inr ⟨_, _, rfl, rfl, .recursive ⟨henv, houter⟩⟩
      | false => exact ih hchain

/-- Closing a group adds the same meanings as the interpreter does. -/
theorem EnvMeans.closeGroup {scope : Scope} {env : EnvId} {outer : Context}
    (houter : EnvMeans store scope.env outer) (hcloses : Closes program store scope env) :
    EnvMeans store env (closeGroup program outer scope.group) := by
  refine ⟨hcloses.contains, ?_⟩
  rw [hcloses.entries, Program.recursiveBindings, Reference.closeGroup]
  refine ChainMeans.append ?_ houter.chain
  generalize (program.group scope.group).entries.zipIdx = entries
  induction entries with
  | nil => exact .nil
  | cons entry entries ih =>
    rw [List.map_cons, List.map_cons, List.reverse_cons, List.reverse_cons]
    exact ih.append (.recursive houter.contains houter.chain .nil)

theorem EnvMeans.extend {env inner : EnvId} (hmeans : EnvMeans store env context) {name : Symbol}
    {node : NodeId} {thunk : Thunk} (hnode : NodeMeans store node thunk)
    (hinner : store.envs.Contains inner)
    (hentries : store.envs.entries inner = (name, .node node) :: store.envs.entries env) :
    EnvMeans store inner ((name, .thunk thunk) :: context) :=
  ⟨hinner, hentries ▸ .node hnode hmeans.chain⟩

/-- The node of an expression stands for the delayed expression. -/
theorem EnvMeans.node (htidy : Tidy program store) {env : EnvId} (hmeans : EnvMeans store env context)
    {expr : ExprId} {node : NodeId} (hlookup : store.lookup? (.evaluation env expr) = some node) :
    NodeMeans store node (.delayed context expr) :=
  .delayed (htidy.contains_of_lookup hlookup) (htidy.address_of_lookup hlookup) hmeans.contains
    hmeans.chain

/-- An environment in which something has a node has been handed out. -/
theorem ChainMeans.envMeans (htidy : Tidy program store) {env : EnvId} {expr : ExprId}
    {node : NodeId} (hchain : ChainMeans store (store.envs.entries env) context)
    (hlookup : store.lookup? (.evaluation env expr) = some node) : EnvMeans store env context :=
  ⟨(htidy.evaluation (htidy.contains_of_lookup hlookup) (htidy.address_of_lookup hlookup)).1, hchain⟩

theorem EnvMeans.nodes (htidy : Tidy program store) {env : EnvId}
    (hmeans : EnvMeans store env context) {args : List ExprId} {nodes : List NodeId}
    (hregistered : Registered store env args nodes) :
    NodesMean store nodes (args.map (Thunk.delayed context)) := by
  induction args generalizing nodes with
  | nil =>
    cases nodes with
    | nil => exact .nil
    | cons node nodes => cases hregistered
  | cons arg args ih =>
    cases nodes with
    | nil => cases hregistered
    | cons node nodes =>
      obtain ⟨hfirst, hrest⟩ := List.cons.inj hregistered
      exact .cons (hmeans.node htidy hfirst) (ih hrest)

/-- The node of a primitive stands for the primitive. -/
theorem nodeMeans_of_library (htidy : Tidy program store) {primitive : Primitive} {node : NodeId}
    (hlookup : store.library.lookup primitive = some node) :
    NodeMeans store node (.given (.primitive primitive)) := by
  obtain ⟨hknown, haddress⟩ := htidy.library (Environments.mem_of_lookup hlookup)
  refine .given haddress (Store.value?_of_knowledge hknown) ?_
  cases primitive with
  | unary op => exact .unary
  | binary op => exact .binary

/-! ## Matching -/

/-- Where the node has a value, its thunk computes what the value stands for. -/
def Agrees (program : Program) (store : Store) (node : NodeId) : Prop :=
  ∀ {value thunk}, store.value? node = some value → NodeMeans store node thunk →
    ∃ datum, ValueMeans store value datum ∧ ∀ {demand}, (program.demand demand).isBind = false →
      matchThunk program thunk demand = matchDatum program datum demand

mutual

/-- The value of the node with the values of all its parts in place. -/
inductive Inlines (store : Store) : NodeId → Datum → Prop
  | atom {node : NodeId} {value : Value} {datum : Datum} : store.value? node = some value →
      (∀ tag args, value ≠ .constructor tag args) → ValueMeans store value datum →
      Inlines store node datum
  | constructor {node : NodeId} {tag : Symbol} {args : List NodeId} {data : List Datum} :
      store.value? node = some (.constructor tag args) → InlinesAll store args data →
      Inlines store node (.constructor tag (data.map Thunk.given))

inductive InlinesAll (store : Store) : List NodeId → List Datum → Prop
  | nil : InlinesAll store [] []
  | cons {node : NodeId} {nodes : List NodeId} {datum : Datum} {data : List Datum} :
      Inlines store node datum → InlinesAll store nodes data →
      InlinesAll store (node :: nodes) (datum :: data)

end

mutual

theorem Inlines.unique {node : NodeId} {datum datum' : Datum} :
    Inlines store node datum → Inlines store node datum' → datum' = datum
  | .atom hvalue hatom hmeans, hother => by
    cases hother with
    | atom hvalue' _ hmeans' =>
      rw [hvalue] at hvalue'
      cases hvalue'
      exact hmeans.unique hmeans'
    | constructor hvalue' _ =>
      rw [hvalue] at hvalue'
      cases hvalue'
      exact absurd rfl (hatom _ _)
  | .constructor hvalue hargs, hother => by
    cases hother with
    | atom hvalue' hatom _ =>
      rw [hvalue] at hvalue'
      cases hvalue'
      exact absurd rfl (hatom _ _)
    | constructor hvalue' hargs' =>
      rw [hvalue] at hvalue'
      cases hvalue'
      rw [hargs.unique hargs']

theorem InlinesAll.unique {nodes : List NodeId} {data data' : List Datum} :
    InlinesAll store nodes data → InlinesAll store nodes data' → data' = data
  | .nil, .nil => rfl
  | .cons hnode hnodes, .cons hnode' hnodes' => by
    rw [hnode.unique hnode', hnodes.unique hnodes']

end

mutual

theorem Inlines.grow {store' : Store} (hgrows : store.Grows store') {node : NodeId} {datum : Datum} :
    Inlines store node datum → Inlines store' node datum
  | .atom hvalue hatom hmeans => .atom (hgrows.value hvalue) hatom (hmeans.grow hgrows)
  | .constructor hvalue hargs => .constructor (hgrows.value hvalue) (hargs.grow hgrows)

theorem InlinesAll.grow {store' : Store} (hgrows : store.Grows store') {nodes : List NodeId}
    {data : List Datum} : InlinesAll store nodes data → InlinesAll store' nodes data
  | .nil => .nil
  | .cons hnode hnodes => .cons (hnode.grow hgrows) (hnodes.grow hgrows)

end

/-- The interpreter computes the whole value of the node from its thunk. -/
def Yields (program : Program) (store : Store) (node : NodeId) (thunk : Thunk) : Prop :=
  ∃ datum, Inlines store node datum ∧ ∀ {demand next}, program.demand demand = .everything next →
    matchThunk program thunk demand = pure ⟨.given datum, [], next⟩

theorem NodesMean.forceAll (hregular : program.Regular) {nodes : List NodeId} {thunks : List Thunk}
    (hyields : ∀ node ∈ nodes, ∀ {thunk}, NodeMeans store node thunk →
      Yields program store node thunk) (hnodes : NodesMean store nodes thunks) :
    ∃ data, InlinesAll store nodes data ∧ forceAll program thunks = pure (data.map Thunk.given) := by
  induction nodes generalizing thunks with
  | nil =>
    cases hnodes
    exact ⟨[], .nil, forceAll_nil⟩
  | cons node nodes ih =>
    cases hnodes with
    | cons hnode hnodes =>
      obtain ⟨datum, hinlines, hforce⟩ := hyields node List.mem_cons_self hnode
      obtain ⟨data, hinlinesAll, hforceAll⟩ :=
        ih (fun node hmem ↦ hyields node (List.mem_cons_of_mem _ hmem)) hnodes
      refine ⟨datum :: data, .cons hinlines hinlinesAll, ?_⟩
      rw [forceAll_cons, hforce hregular.everything, hforceAll]
      rfl

theorem yields_of_forced (hregular : program.Regular)
    (hagrees : ∀ node, allowed node → Agrees program store node) {node : NodeId}
    (hforced : Forced store allowed node) {thunk : Thunk} (hnode : NodeMeans store node thunk) :
    Yields program store node thunk := by
  induction hforced generalizing thunk with
  | intro hallowed hvalue _ ih =>
    rename_i value _
    obtain ⟨datum, hmeans, hthunk⟩ := hagrees _ hallowed hvalue hnode
    have hmatch : ∀ {demand next}, program.demand demand = .everything next →
        matchThunk program thunk demand = matchDatum program datum demand :=
      fun hdemand ↦ hthunk (by rw [hdemand]; rfl)
    cases hmeans with
    | constructor hargs =>
      obtain ⟨data, hinlines, hforce⟩ := hargs.forceAll hregular fun part hpart {thunk} ↦ ih part hpart
      refine ⟨_, .constructor hvalue hinlines, fun hdemand ↦ ?_⟩
      rw [hmatch hdemand, matchDatum_everything_constructor hdemand, hforce, pure_bind]
    | _ =>
      refine ⟨_, .atom hvalue (fun _ _ heq ↦ by cases heq) (by constructor <;> assumption),
        fun hdemand ↦ ?_⟩
      rw [hmatch hdemand]
      exact matchDatum_everything hdemand fun _ _ heq ↦ by cases heq

/-- The interpreter reaches the outcome of a match. -/
structure Matches (store : Store) (outcome : Outcome) (result : Result) : Prop where
  next : result.next = outcome.next
  bound : EnvMeans store outcome.env result.bound

theorem EnvMeans.empty (hcanonical : store.envs.Canonical) : EnvMeans store .empty [] :=
  ⟨hcanonical.contains_empty, hcanonical.entries_empty ▸ .nil⟩

mutual

theorem matches_of_settles (hregular : program.Regular) (hcanonical : store.envs.Canonical)
    (hagrees : ∀ node, allowed node → Agrees program store node) {node : NodeId}
    {demand : DemandId} {outcome : Outcome} {thunk : Thunk} :
    Settles program store allowed node demand outcome → NodeMeans store node thunk →
      ∃ result, matchThunk program thunk demand = pure result ∧ Matches store outcome result
  | .bind hdemand hcontains hentries, hnode =>
    ⟨_, matchThunk_of_bind hdemand thunk, rfl, hcontains, hentries ▸ .node hnode .nil⟩
  | .everything hdemand hforced, hnode => by
    obtain ⟨datum, -, hforce⟩ := yields_of_forced hregular hagrees hforced hnode
    exact ⟨_, hforce hdemand, rfl, .empty hcanonical⟩
  | .kind hallowed hvalue haccepts, hnode => by
    obtain ⟨datum, hmeans, hthunk⟩ := hagrees _ hallowed hvalue hnode
    refine ⟨⟨.given datum, [], _⟩, ?_, rfl, .empty hcanonical⟩
    rw [hthunk (Demand.not_bind_of_accepts haccepts)]
    exact matchDatum_of_accepts hmeans haccepts
  | .constructor hdemand hallowed hvalue hcase hargs, hnode => by
    obtain ⟨datum, hmeans, hthunk⟩ := hagrees _ hallowed hvalue hnode
    cases hmeans with
    | @constructor _ _ thunks hthunks =>
      obtain ⟨bound, hmatch, hbound⟩ := matches_of_settlesArgs hregular hcanonical hagrees
        thunks.length hargs hthunks (.empty hcanonical)
      have hbind : (program.demand demand).isBind = false := by rw [hdemand]; rfl
      have hstep := (hthunk hbind).trans (matchDatum_constructor hdemand hcase)
      rw [Outcome.plain_next] at hmatch
      rw [hmatch, pure_bind] at hstep
      exact ⟨_, hstep, rfl, hbound⟩

theorem matches_of_settlesArgs (hregular : program.Regular) (hcanonical : store.envs.Canonical)
    (hagrees : ∀ node, allowed node → Agrees program store node) (count : Nat)
    {outcome final : Outcome} {args : List NodeId} {thunks : List Thunk} {bound : Context} :
    SettlesArgs program store allowed outcome args final → NodesMean store args thunks →
      EnvMeans store outcome.env bound →
      ∃ inner, matchArgs program count bound outcome.next thunks = pure (inner, final.next) ∧
        EnvMeans store final.env inner
  | .nil, .nil, hbound => ⟨bound, matchArgs_nil, hbound⟩
  | .cons hnext hsettles hcontains hentries hrest, .cons hnode hnodes, hbound => by
    obtain ⟨result, hresult, hmatches⟩ :=
      matches_of_settles hregular hcanonical hagrees hsettles hnode
    have hinner : EnvMeans store _ (result.bound ++ bound) :=
      ⟨hcontains, hentries ▸ hmatches.bound.chain.append hbound.chain⟩
    obtain ⟨inner, hmatch, hfinal⟩ :=
      matches_of_settlesArgs hregular hcanonical hagrees count hrest hnodes hinner
    refine ⟨inner, ?_, hfinal⟩
    rw [matchArgs_cons hnext, hresult, pure_bind, hmatches.next]
    exact hmatch

end

/-! ## Rules -/

/-- The interpreter computes the value from the expression. -/
def Computed (program : Program) (store : Store) (value : Value)
    (evaluate : DemandId → Computation Result) : Prop :=
  ∃ datum, ValueMeans store value datum ∧ ∀ {demand}, (program.demand demand).isBind = false →
    evaluate demand = matchDatum program datum demand

theorem computed_of_evaluated (htidy : Tidy program store)
    (hagrees : ∀ node, allowed node → Agrees program store node) {env : EnvId} {expr : ExprId}
    {node : NodeId} {value : Value} (hevaluated : Evaluated store allowed env expr node value)
    (hmeans : EnvMeans store env context) :
    Computed program store value (eval program context expr) := by
  obtain ⟨datum, hvalue, hmatch⟩ := hagrees node hevaluated.allowed hevaluated.value
    (hmeans.node htidy hevaluated.lookup)
  exact ⟨datum, hvalue, fun hbind ↦ matchThunk_delayed.symm.trans (hmatch hbind)⟩

/-- The interpreter reaches the body that a match selects. -/
theorem body_of_settles (hregular : program.Regular) (htidy : Tidy program store)
    (hagrees : ∀ node, allowed node → Agrees program store node) {env inner outer : EnvId}
    {expr body : ExprId} {node : NodeId} {demand : DemandId} {matched : Outcome}
    {outerContext : Context} (hmeans : EnvMeans store env context)
    (hlookup : store.lookup? (.evaluation env expr) = some node)
    (hsettles : Settles program store allowed node demand matched) (hnext : matched.next = .body body)
    (houter : EnvMeans store outer outerContext) (hinner : store.envs.Contains inner)
    (hentries : store.envs.entries inner =
      store.envs.entries matched.env ++ store.envs.entries outer) :
    ∃ result, eval program context expr demand = pure result ∧
      bodyOf program result.next demand = .ok body ∧
      EnvMeans store inner (result.bound ++ outerContext) := by
  obtain ⟨result, hresult, hmatches⟩ :=
    matches_of_settles hregular htidy.envs hagrees hsettles (hmeans.node htidy hlookup)
  refine ⟨result, matchThunk_delayed.symm.trans hresult, ?_, hinner, ?_⟩
  · rw [hmatches.next, hnext, bodyOf]
  · exact hentries ▸ hmatches.bound.chain.append houter.chain

theorem define_of_defines (htidy : Tidy program store) {env final : EnvId}
    {definitions : List Definition} {explanations : List DefinitionExplanation}
    (hdefines : Defines program store env definitions final explanations)
    (hchain : ChainMeans store (store.envs.entries env) context) :
    ∃ inner, define program context definitions = .ok inner ∧
      ChainMeans store (store.envs.entries final) inner := by
  induction hdefines generalizing context with
  | nil => exact ⟨context, rfl, hchain⟩
  | value hlookup _ hentries _ ih =>
    exact ih (hentries ▸ .node ((hchain.envMeans htidy hlookup).node htidy hlookup) hchain)
  | primitive hname hlookup _ hentries _ ih =>
    rw [define, hname]
    exact ih (hentries ▸ .node (nodeMeans_of_library htidy hlookup) hchain)
  | group hmembers _ ih =>
    exact ih (EnvMeans.closeGroup ⟨hmembers.1.outer, hchain⟩ hmembers.1).chain

/-- A name computes what the node to which it leads stands for.  The members of a group stand for
their function literals, which compute the closures that the interpreter makes. -/
theorem byForm_var_of_resolves (hregular : program.Regular) (htidy : Tidy program store) {env : EnvId}
    {name : Symbol} {binding : Binding} {target : NodeId}
    (hchain : ChainMeans store (store.envs.entries env) context)
    (hbinding : store.envs.get? env name = some binding)
    (hresolves : Resolves program store binding target) (expr : ExprId) :
    ∃ thunk, NodeMeans store target thunk ∧ ∀ {demand}, (program.demand demand).isBind = false →
      byForm program context expr (.var name) demand = matchThunk program thunk demand := by
  obtain ⟨hnone, -⟩ | ⟨binding', meaning, hlookup, hcontext, hbound⟩ := hchain.lookup name
  · rw [Environments.get?_eq_lookup, hnone] at hbinding
    cases hbinding
  · rw [Environments.get?_eq_lookup, hlookup] at hbinding
    cases hbinding
    cases hbound with
    | node hnode =>
      cases hresolves
      exact ⟨_, hnode, fun _ ↦ byForm_var_thunk hcontext⟩
    | recursive houter =>
      cases hresolves with
      | recursive hentry hcloses hholds =>
        refine ⟨_, (houter.closeGroup hcloses).node htidy hholds.lookup, fun hbind ↦ ?_⟩
        obtain ⟨parameter, hliteral⟩ := hregular.literals (List.mem_of_getElem? hentry)
        rw [matchThunk_delayed, eval_of_not_bind hbind, hliteral, byForm_var_recursive hcontext hentry]
        rfl

theorem computed_of_resolves (hregular : program.Regular) (htidy : Tidy program store)
    (hagrees : ∀ node, allowed node → Agrees program store node) {env : EnvId} {name : Symbol}
    {binding : Binding} {target : NodeId} {value : Value} (hmeans : EnvMeans store env context)
    (hbinding : store.envs.get? env name = some binding)
    (hresolves : Resolves program store binding target) (hallowed : allowed target)
    (hvalue : store.value? target = some value) (expr : ExprId) :
    Computed program store value (byForm program context expr (.var name)) := by
  obtain ⟨thunk, hnode, hname⟩ :=
    byForm_var_of_resolves hregular htidy hmeans.chain hbinding hresolves expr
  obtain ⟨datum, hdatum, hmatch⟩ := hagrees target hallowed hvalue hnode
  exact ⟨datum, hdatum, fun hbind ↦ (hname hbind).trans (hmatch hbind)⟩

/-- Evaluating an operator gives the function that it stands for. -/
theorem eval_function (hregular : program.Regular) {expr : ExprId} {value : Value}
    (hcomputed : Computed program store value (eval program context expr))
    (hfunction : value.isFunction = true) :
    ∃ datum, ValueMeans store value datum ∧
      eval program context expr .function = pure ⟨.given datum, [], .done⟩ := by
  obtain ⟨datum, hmeans, hmatch⟩ := hcomputed
  refine ⟨datum, hmeans, ?_⟩
  have haccepts : (program.demand .function).accepts? value = some .done := by
    rw [hregular.function]
    cases value with
    | closure _ => rfl
    | primitive _ => rfl
    | _ => cases hfunction
  rw [hmatch (Demand.not_bind_of_accepts haccepts)]
  exact matchDatum_of_accepts hmeans haccepts

/-- Evaluating an operand gives the number or text that it stands for. -/
theorem eval_operand (hregular : program.Regular) {kind : Operand} {expr : ExprId} {value : Value}
    {next : Next} (hcomputed : Computed program store value (eval program context expr))
    (haccepts : (program.demand kind.demand).accepts? value = some next) :
    value.Flat ∧
      eval program context expr kind.demand = pure ⟨.given (.ofForm value), [], next⟩ := by
  obtain ⟨datum, hmeans, hmatch⟩ := hcomputed
  have hflat : value.Flat := by
    have hdemand : program.demand kind.demand = .number .done ∨
        program.demand kind.demand = .text .done := by
      cases kind with
      | number => exact .inl hregular.number
      | text => exact .inr hregular.text
    obtain hdemand | hdemand := hdemand
    all_goals
      rw [hdemand] at haccepts
      cases value <;> first | exact .number _ | exact .text _ | cases haccepts
  rw [hmatch (Demand.not_bind_of_accepts haccepts), matchDatum_of_accepts hmeans haccepts,
    (ValueMeans.of_flat hflat).unique hmeans]
  exact ⟨hflat, rfl⟩

/-- A primitive computes the same value from what its operand stands for. -/
theorem applyPrimitive_of_computes {function operand : NodeId} {right value : Value}
    {primitive : PrimitiveValue} {explanation : Explanation} {datum : Datum}
    (hcomputes : Computes store allowed function operand right primitive explanation value)
    (hmeans : ValueMeans store (.primitive primitive) datum) (hright : right.Flat)
    (hoperand : store.value? operand = some right) :
    ∃ result, applyPrimitive datum (.given (.ofForm right)) = .ok result ∧
      ValueMeans store value result := by
  cases hcomputes with
  | unary happly =>
    cases hmeans
    refine ⟨_, ?_, .of_flat (UnaryOp.apply_flat happly)⟩
    rw [applyPrimitive, Datum.form_ofForm hright, happly]
    rfl
  | binary =>
    cases hmeans
    exact ⟨_, rfl, .partially hoperand hright⟩
  | partially _ hfirst happly =>
    cases hmeans with
    | partially hfirst' hleft =>
      rw [hfirst] at hfirst'
      cases hfirst'
      refine ⟨_, ?_, .of_flat (BinaryOp.apply_flat happly)⟩
      rw [applyPrimitive, Datum.form_ofForm hleft, Datum.form_ofForm hright, happly]
      rfl

theorem ValueMeans.operand? {primitive : PrimitiveValue} {datum : Datum}
    (hmeans : ValueMeans store (.primitive primitive) datum) :
    datum.operand? = some primitive.operand := by
  cases hmeans <;> rfl

/-- The interpreter computes what a rule gives. -/
theorem computed_of_rule (hregular : program.Regular) (htidy : Tidy program store)
    (hagrees : ∀ node, allowed node → Agrees program store node) {env : EnvId} {expr : ExprId}
    {form : Expr} {explanation : Explanation} {value : Value}
    (hrule : Rule program store allowed env expr form explanation value)
    (hmeans : EnvMeans store env context) :
    Computed program store value (byForm program context expr form) := by
  cases hrule with
  | number => exact ⟨_, .number, fun _ ↦ rfl⟩
  | text => exact ⟨_, .text, fun _ ↦ rfl⟩
  | constructor hconstructor harity hregistered =>
    refine ⟨_, .constructor (hmeans.nodes htidy hregistered), fun _ ↦ ?_⟩
    rw [byForm_constructor hconstructor, if_pos harity]
  | function _ => exact ⟨_, .closure hmeans.contains hmeans.chain, fun _ ↦ rfl⟩
  | var hbinding hresolves hallowed hvalue =>
    exact computed_of_resolves hregular htidy hagrees hmeans hbinding hresolves hallowed hvalue expr
  | op hbinding hresolves hallowed hvalue =>
    obtain ⟨datum, hdatum, hmatch⟩ :=
      computed_of_resolves hregular htidy hagrees hmeans hbinding hresolves hallowed hvalue expr
    exact ⟨datum, hdatum, fun hbind ↦ (byForm_op _).trans (hmatch hbind)⟩
  | closure happlied hliteral hlookup hsettles hnext _ hcontains hinner hentries hresult =>
    obtain ⟨datum, hdatum, happly⟩ :=
      eval_function hregular (computed_of_evaluated htidy hagrees happlied hmeans) rfl
    cases hdatum with
    | closure henv hchain =>
      obtain ⟨result, hresult', hbody, hinner'⟩ := body_of_settles hregular htidy hagrees hmeans
        hlookup hsettles hnext ⟨henv, hchain⟩ hinner hentries
      obtain ⟨datum, hdatum, hmatch⟩ := computed_of_evaluated htidy hagrees hresult hinner'
      refine ⟨datum, hdatum, fun hbind ↦ ?_⟩
      rw [byForm_app_closure happly rfl hliteral, hresult', pure_bind, hbody, mk_ok, pure_bind]
      exact hmatch hbind
  | primitive happlied hoperand haccepts hcomputes =>
    obtain ⟨datum, hdatum, happly⟩ :=
      eval_function hregular (computed_of_evaluated htidy hagrees happlied hmeans) rfl
    obtain ⟨hflat, heval⟩ :=
      eval_operand hregular (computed_of_evaluated htidy hagrees hoperand hmeans) haccepts
    obtain ⟨result, hresult, hvalue⟩ :=
      applyPrimitive_of_computes hcomputes hdatum hflat hoperand.value
    refine ⟨result, hvalue, fun _ ↦ ?_⟩
    rw [byForm_app_primitive happly rfl hdatum.operand?, heval, pure_bind, hresult, mk_ok, pure_bind]
  | letIn hlookup hinner hentries hresult =>
    obtain ⟨datum, hdatum, hmatch⟩ := computed_of_evaluated htidy hagrees hresult
      (hmeans.extend (hmeans.node htidy hlookup) hinner hentries)
    exact ⟨datum, hdatum, fun hbind ↦ (byForm_letIn _ _ _).trans (hmatch hbind)⟩
  | letRec hmembers hresult =>
    obtain ⟨datum, hdatum, hmatch⟩ :=
      computed_of_evaluated htidy hagrees hresult (hmeans.closeGroup hmembers.1)
    exact ⟨datum, hdatum, fun hbind ↦ (byForm_letRec _ _).trans (hmatch hbind)⟩
  | matching hlookup hsettles hnext hinner hentries hresult =>
    obtain ⟨result, hresult', hbody, hinner'⟩ := body_of_settles hregular htidy hagrees hmeans
      hlookup hsettles hnext hmeans hinner hentries
    obtain ⟨datum, hdatum, hmatch⟩ := computed_of_evaluated htidy hagrees hresult hinner'
    refine ⟨datum, hdatum, fun hbind ↦ ?_⟩
    rw [byForm_matching, hresult', pure_bind, hbody, mk_ok, pure_bind]
    exact hmatch hbind
  | defs hdefines hresult =>
    obtain ⟨inner, hdefine, hinner⟩ := define_of_defines htidy hdefines hmeans.chain
    obtain ⟨datum, hdatum, hmatch⟩ := computed_of_evaluated htidy hagrees hresult
      (hinner.envMeans htidy hresult.lookup)
    refine ⟨datum, hdatum, fun hbind ↦ ?_⟩
    rw [byForm_defs, hdefine, mk_ok, pure_bind]
    exact hmatch hbind

theorem agrees_of_holds (hregular : program.Regular) (htidy : Tidy program store) {node : NodeId}
    (hholds : Holds program store node) : Agrees program store node := by
  induction hholds with
  | input _ haddress =>
    intro value thunk hvalue hnode
    cases hnode with
    | delayed _ haddress' _ _ =>
      rw [haddress] at haddress'
      cases haddress'
    | given _ hvalue' hmeans =>
      rw [hvalue] at hvalue'
      cases hvalue'
      exact ⟨_, hmeans, fun hbind ↦ matchThunk_given hbind _⟩
  | evaluation allowed haddress hknown hrule _ ih =>
    intro value thunk hvalue hnode
    rw [Store.value?_of_knowledge hknown] at hvalue
    cases hvalue
    cases hnode with
    | delayed _ haddress' henv hchain =>
      rw [haddress] at haddress'
      cases haddress'
      obtain ⟨datum, hdatum, hmatch⟩ := computed_of_rule hregular htidy ih hrule ⟨henv, hchain⟩
      refine ⟨datum, hdatum, fun hbind ↦ ?_⟩
      rw [matchThunk_delayed, eval_of_not_bind hbind]
      exact hmatch hbind
    | given haddress' _ _ =>
      rw [haddress] at haddress'
      cases haddress'

/-- In a tidy store every node agrees with its thunk. -/
theorem agrees (hregular : program.Regular) (htidy : Tidy program store) (node : NodeId) :
    Agrees program store node :=
  fun hvalue hnode ↦ agrees_of_holds hregular htidy (htidy.holds hvalue) hvalue hnode

end Whence.Reference
