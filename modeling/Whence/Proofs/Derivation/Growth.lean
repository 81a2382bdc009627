import Whence.Proofs.Derivation.Basic

/-!
# Derivations persist

A derivation speaks only of addresses, environments and knowledge that the store has, so it is still
one after the store has grown.  It is one also in a store that has lost knowledge, as long as the nodes
which the derivation looks at keep their values and the closures of groups are still there.
-/

namespace Whence

variable {program : Program} {store store' : Store} {allowed allowed' : NodeId → Prop}

/-- Recursive bindings refer to environments that have been handed out. -/
def Environments.Scoped (envs : Environments) : Prop :=
  ∀ {env name scope position}, (name, Binding.recursive scope position) ∈ envs.entries env →
    envs.Contains scope.env

/-- The second store has the addresses, environments, library and closures of groups of the first one;
of other nodes it may know something else. -/
structure Store.Carries (program : Program) (store store' : Store) : Prop where
  lookup : ∀ {address node}, store.lookup? address = some node →
    store'.lookup? address = some node
  closures : ∀ {scope env entry node}, entry ∈ (program.group scope.group).entries →
    Closes program store scope env → HoldsClosure store scope env entry.function node →
      HoldsClosure store' scope env entry.function node
  envs : store.envs.Grows store'.envs
  library : store'.library = store.library

theorem HoldsClosure.grow (hgrows : store.Grows store') {scope : Scope} {env : EnvId}
    {function : ExprId} {node : NodeId} (hholds : HoldsClosure store scope env function node) :
    HoldsClosure store' scope env function node :=
  ⟨hgrows.lookup hholds.lookup, hgrows.knowledge hholds.knowledge⟩

theorem Store.Grows.carries (hgrows : store.Grows store') : store.Carries program store' :=
  ⟨hgrows.lookup, fun _ _ hholds ↦ hholds.grow hgrows, hgrows.envs, hgrows.library⟩

section

variable (hallowed : ∀ {node value}, allowed node → store.value? node = some value →
  allowed' node ∧ store'.value? node = some value)
include hallowed

theorem Forced.carry {node : NodeId} (hforced : Forced store allowed node) :
    Forced store' allowed' node := by
  induction hforced with
  | intro hnode hvalue _ ih =>
    obtain ⟨hnode', hvalue'⟩ := hallowed hnode hvalue
    exact .intro hnode' hvalue' ih

theorem Evaluated.carry
    (hlookup : ∀ {address node}, store.lookup? address = some node →
      store'.lookup? address = some node)
    {env : EnvId} {expr : ExprId} {node : NodeId} {value : Value}
    (hevaluated : Evaluated store allowed env expr node value) :
    Evaluated store' allowed' env expr node value := by
  obtain ⟨hnode, hvalue⟩ := hallowed hevaluated.allowed hevaluated.value
  exact ⟨hlookup hevaluated.lookup, hnode, hvalue⟩

theorem Computes.carry {function operand : NodeId} {right value : Value}
    {primitive : PrimitiveValue} {explanation : Explanation}
    (hcomputes : Computes store allowed function operand right primitive explanation value) :
    Computes store' allowed' function operand right primitive explanation value := by
  cases hcomputes with
  | unary hvalue => exact .unary hvalue
  | binary => exact .binary
  | partially hfirst hleft hvalue =>
    obtain ⟨hfirst', hleft'⟩ := hallowed hfirst hleft
    exact .partially hfirst' hleft' hvalue

end

mutual

theorem Settles.contains_env (hcanonical : store.envs.Canonical) {node : NodeId}
    {demand : DemandId} {outcome : Outcome} :
    Settles program store allowed node demand outcome → store.envs.Contains outcome.env
  | .bind _ hcontains _ => hcontains
  | .everything _ _ => hcanonical.contains_empty
  | .kind _ _ _ => hcanonical.contains_empty
  | .constructor _ _ _ _ hargs => hargs.contains_env hcanonical hcanonical.contains_empty

theorem SettlesArgs.contains_env (hcanonical : store.envs.Canonical) {outcome final : Outcome}
    {args : List NodeId} :
    SettlesArgs program store allowed outcome args final →
      store.envs.Contains outcome.env → store.envs.Contains final.env
  | .nil, houtcome => houtcome
  | .cons _ _ hcontains _ hrest, _ => hrest.contains_env hcanonical hcontains

end

mutual

theorem Settles.carry (hcanonical : store.envs.Canonical) (henvs : store.envs.Grows store'.envs)
    (hallowed : ∀ {node value}, allowed node → store.value? node = some value →
      allowed' node ∧ store'.value? node = some value)
    {node : NodeId} {demand : DemandId} {outcome : Outcome} :
    Settles program store allowed node demand outcome →
      Settles program store' allowed' node demand outcome
  | .bind hdemand hcontains hentries =>
    .bind hdemand (henvs.contains hcontains) ((henvs.entries_eq hcontains).trans hentries)
  | .everything hdemand hforced => .everything hdemand (hforced.carry hallowed)
  | .kind hnode hvalue haccepts =>
    .kind (hallowed hnode hvalue).1 (hallowed hnode hvalue).2 haccepts
  | .constructor hdemand hnode hvalue hcase hargs =>
    .constructor hdemand (hallowed hnode hvalue).1 (hallowed hnode hvalue).2 hcase
      (hargs.carry hcanonical henvs hallowed hcanonical.contains_empty)

theorem SettlesArgs.carry (hcanonical : store.envs.Canonical)
    (henvs : store.envs.Grows store'.envs)
    (hallowed : ∀ {node value}, allowed node → store.value? node = some value →
      allowed' node ∧ store'.value? node = some value)
    {outcome final : Outcome} {args : List NodeId} :
    SettlesArgs program store allowed outcome args final → store.envs.Contains outcome.env →
      SettlesArgs program store' allowed' outcome args final
  | .nil, _ => .nil
  | .cons hnext hmatched hcontains hentries hrest, houtcome => by
    refine .cons hnext (hmatched.carry hcanonical henvs hallowed)
      (henvs.contains hcontains) ?_ (hrest.carry hcanonical henvs hallowed hcontains)
    rw [henvs.entries_eq hcontains, henvs.entries_eq houtcome,
      henvs.entries_eq (hmatched.contains_env hcanonical), hentries]

end

theorem Settles.grow (hcanonical : store.envs.Canonical) (hgrows : store.Grows store')
    (hallowed : ∀ {node value}, allowed node → store.value? node = some value → allowed' node)
    {node : NodeId} {demand : DemandId} {outcome : Outcome}
    (hsettles : Settles program store allowed node demand outcome) :
    Settles program store' allowed' node demand outcome :=
  hsettles.carry hcanonical hgrows.envs fun hnode hvalue ↦
    ⟨hallowed hnode hvalue, hgrows.value hvalue⟩

theorem Forced.grow (hgrows : store.Grows store')
    (hallowed : ∀ {node value}, allowed node → store.value? node = some value → allowed' node)
    {node : NodeId} (hforced : Forced store allowed node) : Forced store' allowed' node :=
  hforced.carry fun hnode hvalue ↦ ⟨hallowed hnode hvalue, hgrows.value hvalue⟩

theorem Evaluated.grow (hgrows : store.Grows store')
    (hallowed : ∀ {node value}, allowed node → store.value? node = some value → allowed' node)
    {env : EnvId} {expr : ExprId} {node : NodeId} {value : Value}
    (hevaluated : Evaluated store allowed env expr node value) :
    Evaluated store' allowed' env expr node value :=
  hevaluated.carry (fun hnode hvalue ↦ ⟨hallowed hnode hvalue, hgrows.value hvalue⟩) hgrows.lookup

theorem Closes.carry (henvs : store.envs.Grows store'.envs) {scope : Scope} {env : EnvId}
    (hcloses : Closes program store scope env) : Closes program store' scope env where
  outer := henvs.contains hcloses.outer
  contains := henvs.contains hcloses.contains
  entries := by
    rw [henvs.entries_eq hcloses.contains, henvs.entries_eq hcloses.outer, hcloses.entries]

theorem Closes.grow (hgrows : store.Grows store') {scope : Scope} {env : EnvId}
    (hcloses : Closes program store scope env) : Closes program store' scope env :=
  hcloses.carry hgrows.envs

theorem HoldsClosures.carry (hcarries : store.Carries program store') {scope : Scope} {env : EnvId}
    (hcloses : Closes program store scope env) {entries : List GroupEntry} {members : List Member}
    (hentries : ∀ entry ∈ entries, entry ∈ (program.group scope.group).entries)
    (hholds : HoldsClosures store scope env entries members) :
    HoldsClosures store' scope env entries members := by
  induction hholds with
  | nil => exact .nil
  | cons hfirst _ ih =>
    obtain ⟨hentry, hrest⟩ := List.forall_mem_cons.1 hentries
    exact .cons (hcarries.closures hentry hcloses hfirst) (ih hrest)

theorem Members.carry (hcarries : store.Carries program store') {scope : Scope} {env : EnvId}
    {members : List Member} (hmembers : Members program store scope env members) :
    Members program store' scope env members :=
  ⟨hmembers.1.carry hcarries.envs, hmembers.2.carry hcarries hmembers.1 fun _ hentry ↦ hentry⟩

theorem Members.grow (hgrows : store.Grows store') {scope : Scope} {env : EnvId}
    {members : List Member} (hmembers : Members program store scope env members) :
    Members program store' scope env members :=
  hmembers.carry hgrows.carries

theorem ScopeMembers.carry (hcarries : store.Carries program store') {scope : Option Scope}
    {members : List Member} (hmembers : ScopeMembers program store members scope) :
    ScopeMembers program store' members scope := by
  cases scope with
  | none => exact hmembers
  | some scope =>
    obtain ⟨env, hmembers⟩ := hmembers
    exact ⟨env, hmembers.carry hcarries⟩

theorem ScopeOf.carry (hscoped : store.envs.Scoped) (henvs : store.envs.Grows store'.envs)
    {env : EnvId} (henv : store.envs.Contains env) {function : ExprId} {scope : Option Scope}
    (hscope : ScopeOf program store env function scope) :
    ScopeOf program store' env function scope := by
  cases scope with
  | some scope => exact ⟨hscope.1.carry henvs, hscope.2⟩
  | none =>
    -- A scope of the larger store stands in the chain of the environment, so the smaller one has it.
    rintro scope ⟨hcloses, hfunction⟩
    refine hscope scope ⟨?_, hfunction⟩
    have hhead : ∃ name position, (name, .recursive scope position) ∈ store.envs.entries env := by
      obtain ⟨entry, hentry, -⟩ := hfunction
      obtain ⟨position, hposition⟩ := List.mem_iff_getElem?.1 hentry
      refine ⟨entry.name, position, ?_⟩
      rw [← henvs.entries_eq henv, hcloses.entries, List.mem_append, List.mem_reverse]
      refine .inl (List.mem_map.2 ⟨(entry, position), ?_, rfl⟩)
      exact List.mem_zipIdx_iff_getElem?.2 hposition
    obtain ⟨name, position, hmem⟩ := hhead
    have houter : store.envs.Contains scope.env := hscoped hmem
    refine ⟨houter, henv, ?_⟩
    rw [← henvs.entries_eq henv, ← henvs.entries_eq houter, hcloses.entries]

theorem ScopeMembers.grow (hgrows : store.Grows store') {scope : Option Scope}
    {members : List Member} (hmembers : ScopeMembers program store members scope) :
    ScopeMembers program store' members scope :=
  hmembers.carry hgrows.carries

theorem Resolves.carry (hcarries : store.Carries program store') {binding : Binding} {node : NodeId}
    (hresolves : Resolves program store binding node) : Resolves program store' binding node := by
  cases hresolves with
  | node => exact .node
  | recursive hentry hcloses hholds =>
    exact .recursive hentry (hcloses.carry hcarries.envs)
      (hcarries.closures (List.mem_of_getElem? hentry) hcloses hholds)

theorem Resolves.grow (hgrows : store.Grows store') {binding : Binding} {node : NodeId}
    (hresolves : Resolves program store binding node) : Resolves program store' binding node :=
  hresolves.carry hgrows.carries

theorem Defines.carry (hcarries : store.Carries program store') {env final : EnvId}
    {definitions : List Definition} {explanations : List DefinitionExplanation}
    (hdefines : Defines program store env definitions final explanations)
    (henv : store.envs.Contains env) :
    Defines program store' env definitions final explanations := by
  induction hdefines with
  | nil => exact .nil
  | value hlookup hcontains hentries _ ih =>
    refine .value (hcarries.lookup hlookup) (hcarries.envs.contains hcontains) ?_ (ih hcontains)
    rw [hcarries.envs.entries_eq hcontains, hcarries.envs.entries_eq henv, hentries]
  | primitive hname hlibrary hcontains hentries _ ih =>
    refine .primitive hname (by rw [hcarries.library, hlibrary]) (hcarries.envs.contains hcontains)
      ?_ (ih hcontains)
    rw [hcarries.envs.entries_eq hcontains, hcarries.envs.entries_eq henv, hentries]
  | group hmembers _ ih => exact .group (hmembers.carry hcarries) (ih hmembers.1.contains)

theorem Defines.grow (hgrows : store.Grows store') {env final : EnvId}
    {definitions : List Definition} {explanations : List DefinitionExplanation}
    (hdefines : Defines program store env definitions final explanations)
    (henv : store.envs.Contains env) :
    Defines program store' env definitions final explanations :=
  hdefines.carry hgrows.carries henv

/-! ## Rules -/

theorem Registered.carry (hcarries : store.Carries program store') {env : EnvId}
    {args : List ExprId} {nodes : List NodeId} (hregistered : Registered store env args nodes) :
    Registered store' env args nodes := by
  rw [Registered] at hregistered ⊢
  rw [← hregistered]
  refine List.map_congr_left fun arg harg ↦ ?_
  have hmem := List.mem_map_of_mem (f := fun arg ↦ store.lookup? (.evaluation env arg)) harg
  rw [hregistered] at hmem
  obtain ⟨node, -, hnode⟩ := List.mem_map.1 hmem
  rw [← hnode]
  exact hcarries.lookup hnode.symm

theorem Environments.Grows.get?_of_some {envs envs' : Environments} (henvs : envs.Grows envs')
    {env : EnvId} {name : Symbol} {binding : Binding} (hbinding : envs.get? env name = some binding) :
    envs'.get? env name = some binding := by
  have henv : envs.Contains env := by
    apply Classical.byContradiction
    intro henv
    rw [Environments.get?_eq_lookup, Environments.entries_of_not_contains henv] at hbinding
    cases hbinding
  rw [henvs.get?_eq henv, hbinding]

theorem Store.Grows.get? (hgrows : store.Grows store') {env : EnvId} {name : Symbol}
    {binding : Binding} (hbinding : store.envs.get? env name = some binding) :
    store'.envs.get? env name = some binding :=
  hgrows.envs.get?_of_some hbinding

theorem Rule.carry (hcanonical : store.envs.Canonical) (hscoped : store.envs.Scoped)
    (hcarries : store.Carries program store')
    (hallowed : ∀ {node value}, allowed node → store.value? node = some value →
      allowed' node ∧ store'.value? node = some value)
    {env : EnvId} (henv : store.envs.Contains env) {expr : ExprId} {form : Expr}
    {explanation : Explanation} {value : Value}
    (hrule : Rule program store allowed env expr form explanation value) :
    Rule program store' allowed' env expr form explanation value := by
  have henvs := hcarries.envs
  cases hrule with
  | number => exact .number
  | text => exact .text
  | constructor htag harity hregistered =>
    exact .constructor htag harity (hregistered.carry hcarries)
  | function hscope => exact .function (hscope.carry hscoped henvs henv)
  | var hbinding hresolves htarget hvalue =>
    obtain ⟨htarget', hvalue'⟩ := hallowed htarget hvalue
    exact .var (henvs.get?_of_some hbinding) (hresolves.carry hcarries) htarget' hvalue'
  | op hbinding hresolves htarget hvalue =>
    obtain ⟨htarget', hvalue'⟩ := hallowed htarget hvalue
    exact .op (henvs.get?_of_some hbinding) (hresolves.carry hcarries) htarget' hvalue'
  | closure happlied hliteral hlookup hmatched hnext hmembers hclosure hcontains hentries hresult =>
    refine .closure (happlied.carry hallowed hcarries.lookup) hliteral (hcarries.lookup hlookup)
      (hmatched.carry hcanonical henvs hallowed) hnext (hmembers.carry hcarries)
      (henvs.contains hclosure) (henvs.contains hcontains) ?_ (hresult.carry hallowed hcarries.lookup)
    rw [henvs.entries_eq hcontains, henvs.entries_eq hclosure,
      henvs.entries_eq (hmatched.contains_env hcanonical), hentries]
  | primitive happlied hoperand haccepts hcomputes =>
    exact .primitive (happlied.carry hallowed hcarries.lookup)
      (hoperand.carry hallowed hcarries.lookup) haccepts
      (hcomputes.carry hallowed)
  | letIn hlookup hcontains hentries hresult =>
    refine .letIn (hcarries.lookup hlookup) (henvs.contains hcontains) ?_
      (hresult.carry hallowed hcarries.lookup)
    rw [henvs.entries_eq hcontains, henvs.entries_eq henv, hentries]
  | letRec hmembers hresult =>
    exact .letRec (hmembers.carry hcarries) (hresult.carry hallowed hcarries.lookup)
  | matching hlookup hmatched hnext hcontains hentries hresult =>
    refine .matching (hcarries.lookup hlookup) (hmatched.carry hcanonical henvs hallowed) hnext
      (henvs.contains hcontains) ?_ (hresult.carry hallowed hcarries.lookup)
    rw [henvs.entries_eq hcontains, henvs.entries_eq henv,
      henvs.entries_eq (hmatched.contains_env hcanonical), hentries]
  | defs hdefines hresult =>
    exact .defs (hdefines.carry hcarries henv) (hresult.carry hallowed hcarries.lookup)

theorem Rule.grow (hcanonical : store.envs.Canonical) (hscoped : store.envs.Scoped)
    (hgrows : store.Grows store')
    (hallowed : ∀ {node value}, allowed node → store.value? node = some value → allowed' node)
    {env : EnvId} (henv : store.envs.Contains env) {expr : ExprId} {form : Expr}
    {explanation : Explanation} {value : Value}
    (hrule : Rule program store allowed env expr form explanation value) :
    Rule program store' allowed' env expr form explanation value :=
  hrule.carry hcanonical hscoped hgrows.carries
    (fun hnode hvalue ↦ ⟨hallowed hnode hvalue, hgrows.value hvalue⟩) henv

/-- What holds still holds if the nodes with knowledge that holds keep it. -/
theorem Holds.carry (hcanonical : store.envs.Canonical) (hscoped : store.envs.Scoped)
    (hframed : ∀ {node env expr}, store.Contains node →
      store.address node = .evaluation env expr → store.envs.Contains env)
    (hcarries : store.Carries program store')
    (hcontains : ∀ {node}, store.Contains node →
      store'.Contains node ∧ store'.address node = store.address node)
    (hknowledge : ∀ {node knowledge}, Holds program store node →
      store.knowledge? node = some knowledge → store'.knowledge? node = some knowledge)
    {node : NodeId} (hholds : Holds program store node) : Holds program store' node := by
  induction hholds with
  | input hnode hinput =>
    obtain ⟨hnode', haddress⟩ := hcontains hnode
    exact .input hnode' (haddress.trans hinput)
  | @evaluation node env expr explanation value allowed hevaluation hknown hrule hsources ih =>
    have hnode := Store.contains_of_knowledge hknown
    refine .evaluation allowed ((hcontains hnode).2.trans hevaluation)
      (hknowledge (.evaluation allowed hevaluation hknown hrule hsources) hknown) ?_ ih
    refine hrule.carry hcanonical hscoped hcarries (fun {source held} hsource hvalue ↦ ?_)
      (hframed hnode hevaluation)
    rw [Store.value?_eq] at hvalue ⊢
    obtain ⟨knowledge, hknowledge', hheld⟩ := Option.bind_eq_some_iff.1 hvalue
    rw [hknowledge (hsources source hsource) hknowledge', Option.bind_some]
    exact ⟨hsource, hheld⟩

theorem Holds.grow (hcanonical : store.envs.Canonical) (hscoped : store.envs.Scoped)
    (hframed : ∀ {node env expr}, store.Contains node →
      store.address node = .evaluation env expr → store.envs.Contains env)
    (hgrows : store.Grows store') {node : NodeId} (hholds : Holds program store node) :
    Holds program store' node :=
  hholds.carry hcanonical hscoped hframed hgrows.carries
    (fun hnode ↦ ⟨hgrows.contains hnode, hgrows.address_eq hnode⟩) fun _ ↦ hgrows.knowledge

end Whence
