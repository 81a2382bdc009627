import Whence.Proofs.Derivation.Basic

/-!
# A store determines its derivations

Environments are canonical and addresses have one node each, so a match on a store has one outcome
and a rule gives one explanation and one value.
-/

namespace Whence

variable {program : Program} {store : Store} {allowed allowed' : NodeId → Prop}

mutual

theorem Settles.unique (hcanonical : store.envs.Canonical) {node : NodeId} {demand : DemandId}
    {outcome outcome' : Outcome} :
    Settles program store allowed node demand outcome →
      Settles program store allowed' node demand outcome' → outcome = outcome'
  | .bind hdemand hcontains hentries, hother => by
    cases hother with
    | bind hdemand' hcontains' hentries' =>
      rw [hdemand] at hdemand'
      cases hdemand'
      rw [hcanonical.eq_of_entries_eq hcontains hcontains' (hentries.trans hentries'.symm)]
    | everything hdemand' _ => simp [hdemand] at hdemand'
    | kind _ _ haccepts => simp [hdemand, Demand.accepts?] at haccepts
    | constructor hdemand' _ _ _ _ => simp [hdemand] at hdemand'
  | .everything hdemand _, hother => by
    cases hother with
    | bind hdemand' _ _ => simp [hdemand] at hdemand'
    | everything hdemand' _ =>
      rw [hdemand] at hdemand'
      cases hdemand'
      rfl
    | kind _ _ haccepts => simp [hdemand, Demand.accepts?] at haccepts
    | constructor hdemand' _ _ _ _ => simp [hdemand] at hdemand'
  | .kind _ hvalue haccepts, hother => by
    cases hother with
    | bind hdemand' _ _ => simp [hdemand', Demand.accepts?] at haccepts
    | everything hdemand' _ => simp [hdemand', Demand.accepts?] at haccepts
    | kind _ hvalue' haccepts' =>
      rw [hvalue] at hvalue'
      cases hvalue'
      rw [haccepts] at haccepts'
      cases haccepts'
      rfl
    | constructor hdemand' _ _ _ _ => simp [hdemand', Demand.accepts?] at haccepts
  | .constructor hdemand _ hvalue hcase hargs, hother => by
    cases hother with
    | bind hdemand' _ _ => simp [hdemand] at hdemand'
    | everything hdemand' _ => simp [hdemand] at hdemand'
    | kind _ _ haccepts => simp [hdemand, Demand.accepts?] at haccepts
    | constructor hdemand' _ hvalue' hcase' hargs' =>
      rw [hdemand] at hdemand'
      cases hdemand'
      rw [hvalue] at hvalue'
      cases hvalue'
      rw [hcase] at hcase'
      cases hcase'
      exact hargs.unique hcanonical hargs'

theorem SettlesArgs.unique (hcanonical : store.envs.Canonical) {outcome final final' : Outcome}
    {args : List NodeId} :
    SettlesArgs program store allowed outcome args final →
      SettlesArgs program store allowed' outcome args final' → final = final'
  | .nil, .nil => rfl
  | .cons hnext hmatched hcontains hentries hrest,
    .cons hnext' hmatched' hcontains' hentries' hrest' => by
    rw [hnext] at hnext'
    cases hnext'
    cases hmatched.unique hcanonical hmatched'
    cases hcanonical.eq_of_entries_eq hcontains hcontains' (hentries.trans hentries'.symm)
    exact hrest.unique hcanonical hrest'

end

theorem Closes.unique (hcanonical : store.envs.Canonical) {scope : Scope} {env env' : EnvId}
    (hcloses : Closes program store scope env) (hcloses' : Closes program store scope env') :
    env = env' :=
  hcanonical.eq_of_entries_eq hcloses.contains hcloses'.contains
    (hcloses.entries.trans hcloses'.entries.symm)

theorem HoldsClosure.unique {scope : Scope} {env : EnvId} {function : ExprId} {node node' : NodeId}
    (hholds : HoldsClosure store scope env function node)
    (hholds' : HoldsClosure store scope env function node') : node = node' := by
  have hlookup := hholds.lookup
  rw [hholds'.lookup] at hlookup
  exact (Option.some.inj hlookup).symm

theorem HoldsClosures.unique {scope : Scope} {env : EnvId} {entries : List GroupEntry}
    {members members' : List Member} (hholds : HoldsClosures store scope env entries members)
    (hholds' : HoldsClosures store scope env entries members') : members = members' := by
  induction hholds generalizing members' with
  | nil =>
    cases hholds'
    rfl
  | cons hfirst _ ih =>
    cases hholds' with
    | cons hfirst' hrest' => rw [hfirst.unique hfirst', ih hrest']

theorem Members.unique (hcanonical : store.envs.Canonical) {scope : Scope} {env env' : EnvId}
    {members members' : List Member} (hmembers : Members program store scope env members)
    (hmembers' : Members program store scope env' members') : env = env' ∧ members = members' := by
  obtain ⟨hcloses, hholds⟩ := hmembers
  obtain ⟨hcloses', hholds'⟩ := hmembers'
  cases hcloses.unique hcanonical hcloses'
  exact ⟨rfl, hholds.unique hholds'⟩

theorem ScopeMembers.unique (hcanonical : store.envs.Canonical) {scope : Option Scope}
    {members members' : List Member} (hmembers : ScopeMembers program store members scope)
    (hmembers' : ScopeMembers program store members' scope) : members = members' := by
  cases scope with
  | none => exact Eq.trans hmembers (Eq.symm hmembers')
  | some scope =>
    obtain ⟨env, hmembers⟩ := hmembers
    obtain ⟨env', hmembers'⟩ := hmembers'
    exact (hmembers.unique hcanonical hmembers').2

/-- The innermost binding of the environment that closes a group names the scope. -/
theorem IsMember.head {env : EnvId} {function : ExprId} {scope : Scope}
    (hmember : IsMember program store env function scope) :
    ∃ name position rest, store.envs.entries env = (name, .recursive scope position) :: rest := by
  obtain ⟨hcloses, entry, hentry, -⟩ := hmember
  have hne : (program.recursiveBindings scope).reverse ≠ [] := by
    intro hnil
    rw [List.reverse_eq_nil_iff, Program.recursiveBindings, List.map_eq_nil_iff,
      List.zipIdx_eq_nil_iff] at hnil
    rw [hnil] at hentry
    cases hentry
  obtain ⟨first, rest, hcons⟩ := List.exists_cons_of_ne_nil hne
  have hfirst : first ∈ program.recursiveBindings scope := by
    rw [← List.mem_reverse, hcons]
    exact List.mem_cons_self
  obtain ⟨⟨entry', position⟩, -, rfl⟩ := List.mem_map.1 hfirst
  exact ⟨entry'.name, position, _, by rw [hcloses.entries, hcons]; rfl⟩

theorem IsMember.unique {env : EnvId} {function function' : ExprId} {scope scope' : Scope}
    (hmember : IsMember program store env function scope)
    (hmember' : IsMember program store env function' scope') : scope = scope' := by
  obtain ⟨name, position, rest, hhead⟩ := hmember.head
  obtain ⟨name', position', rest', hhead'⟩ := hmember'.head
  rw [hhead] at hhead'
  cases hhead'
  rfl

theorem ScopeOf.unique {env : EnvId} {function : ExprId} {scope scope' : Option Scope}
    (hscope : ScopeOf program store env function scope)
    (hscope' : ScopeOf program store env function scope') : scope = scope' := by
  cases scope with
  | none =>
    cases scope' with
    | none => rfl
    | some scope' => exact absurd hscope' (hscope scope')
  | some scope =>
    cases scope' with
    | none => exact absurd hscope (hscope' scope)
    | some scope' => rw [IsMember.unique hscope hscope']

theorem Resolves.unique (hcanonical : store.envs.Canonical) {binding : Binding}
    {node node' : NodeId} (hresolves : Resolves program store binding node)
    (hresolves' : Resolves program store binding node') : node = node' := by
  cases hresolves with
  | node =>
    cases hresolves'
    rfl
  | recursive hentry hcloses hholds =>
    cases hresolves' with
    | recursive hentry' hcloses' hholds' =>
      rw [hentry] at hentry'
      cases hentry'
      cases hcloses.unique hcanonical hcloses'
      exact hholds.unique hholds'

theorem Defines.unique (hcanonical : store.envs.Canonical) {env final final' : EnvId}
    {definitions : List Definition} {explanations explanations' : List DefinitionExplanation}
    (hdefines : Defines program store env definitions final explanations)
    (hdefines' : Defines program store env definitions final' explanations') :
    final = final' ∧ explanations = explanations' := by
  induction hdefines generalizing final' explanations' with
  | nil =>
    cases hdefines'
    exact ⟨rfl, rfl⟩
  | value hlookup hcontains hentries _ ih =>
    cases hdefines' with
    | value hlookup' hcontains' hentries' hrest' =>
      rw [hlookup] at hlookup'
      cases hlookup'
      cases hcanonical.eq_of_entries_eq hcontains hcontains' (hentries.trans hentries'.symm)
      obtain ⟨rfl, rfl⟩ := ih hrest'
      exact ⟨rfl, rfl⟩
  | primitive hname hlibrary hcontains hentries _ ih =>
    cases hdefines' with
    | primitive hname' hlibrary' hcontains' hentries' hrest' =>
      rw [hname] at hname'
      cases hname'
      rw [hlibrary] at hlibrary'
      cases hlibrary'
      cases hcanonical.eq_of_entries_eq hcontains hcontains' (hentries.trans hentries'.symm)
      obtain ⟨rfl, rfl⟩ := ih hrest'
      exact ⟨rfl, rfl⟩
  | group hmembers _ ih =>
    cases hdefines' with
    | group hmembers' hrest' =>
      obtain ⟨rfl, rfl⟩ := hmembers.unique hcanonical hmembers'
      obtain ⟨rfl, rfl⟩ := ih hrest'
      exact ⟨rfl, rfl⟩

theorem Evaluated.unique {env : EnvId} {expr : ExprId} {node node' : NodeId} {value value' : Value}
    (hevaluated : Evaluated store allowed env expr node value)
    (hevaluated' : Evaluated store allowed' env expr node' value') :
    node = node' ∧ value = value' := by
  have hnode := hevaluated.lookup
  rw [hevaluated'.lookup] at hnode
  cases hnode
  have hvalue := hevaluated.value
  rw [hevaluated'.value] at hvalue
  cases hvalue
  exact ⟨rfl, rfl⟩

theorem Registered.unique {env : EnvId} {args : List ExprId} {nodes nodes' : List NodeId}
    (hregistered : Registered store env args nodes)
    (hregistered' : Registered store env args nodes') : nodes = nodes' :=
  (List.map_inj_right fun _ _ ↦ Option.some.inj).1 (Eq.trans (Eq.symm hregistered) hregistered')

theorem Computes.unique {function operand : NodeId} {right value value' : Value}
    {primitive : PrimitiveValue} {explanation explanation' : Explanation}
    (hcomputes : Computes store allowed function operand right primitive explanation value)
    (hcomputes' : Computes store allowed' function operand right primitive explanation' value') :
    explanation = explanation' ∧ value = value' := by
  cases hcomputes with
  | unary hvalue =>
    cases hcomputes' with
    | unary hvalue' =>
      rw [hvalue] at hvalue'
      cases hvalue'
      exact ⟨rfl, rfl⟩
  | binary =>
    cases hcomputes'
    exact ⟨rfl, rfl⟩
  | partially _ hleft hvalue =>
    cases hcomputes' with
    | partially _ hleft' hvalue' =>
      rw [hleft] at hleft'
      cases hleft'
      rw [hvalue] at hvalue'
      cases hvalue'
      exact ⟨rfl, rfl⟩

theorem Rule.unique (hcanonical : store.envs.Canonical) {env : EnvId} {expr : ExprId} {form : Expr}
    {explanation explanation' : Explanation} {value value' : Value}
    (hrule : Rule program store allowed env expr form explanation value)
    (hrule' : Rule program store allowed' env expr form explanation' value') :
    explanation = explanation' ∧ value = value' := by
  cases hrule with
  | number =>
    cases hrule'
    exact ⟨rfl, rfl⟩
  | text =>
    cases hrule'
    exact ⟨rfl, rfl⟩
  | constructor _ _ hregistered =>
    cases hrule' with
    | constructor _ _ hregistered' => exact ⟨rfl, by rw [hregistered.unique hregistered']⟩
  | function hscope =>
    cases hrule' with
    | function hscope' => exact ⟨rfl, by rw [hscope.unique hscope']⟩
  | var hbinding hresolves _ hvalue =>
    cases hrule' with
    | var hbinding' hresolves' _ hvalue' =>
      rw [hbinding] at hbinding'
      cases hbinding'
      cases hresolves.unique hcanonical hresolves'
      rw [hvalue] at hvalue'
      cases hvalue'
      exact ⟨rfl, rfl⟩
  | op hbinding hresolves _ hvalue =>
    cases hrule' with
    | op hbinding' hresolves' _ hvalue' =>
      rw [hbinding] at hbinding'
      cases hbinding'
      cases hresolves.unique hcanonical hresolves'
      rw [hvalue] at hvalue'
      cases hvalue'
      exact ⟨rfl, rfl⟩
  | closure happlied hliteral hlookup hmatched hnext hmembers _ hcontains hentries hresult =>
    cases hrule' with
    | closure happlied' hliteral' hlookup' hmatched' hnext' hmembers' _ hcontains' hentries'
        hresult' =>
      obtain ⟨rfl, hclosure⟩ := happlied.unique happlied'
      cases hclosure
      rw [hliteral] at hliteral'
      cases hliteral'
      rw [hlookup] at hlookup'
      cases hlookup'
      cases hmatched.unique hcanonical hmatched'
      rw [hnext] at hnext'
      cases hnext'
      cases hmembers.unique hcanonical hmembers'
      cases hcanonical.eq_of_entries_eq hcontains hcontains' (hentries.trans hentries'.symm)
      obtain ⟨rfl, rfl⟩ := hresult.unique hresult'
      exact ⟨rfl, rfl⟩
    | primitive happlied' _ _ _ => cases (happlied.unique happlied').2
  | primitive happlied hoperand _ hcomputes =>
    cases hrule' with
    | closure happlied' _ _ _ _ _ _ _ _ _ => cases (happlied.unique happlied').2
    | primitive happlied' hoperand' _ hcomputes' =>
      obtain ⟨rfl, hprimitive⟩ := happlied.unique happlied'
      cases hprimitive
      obtain ⟨rfl, rfl⟩ := hoperand.unique hoperand'
      exact hcomputes.unique hcomputes'
  | letIn hlookup hcontains hentries hresult =>
    cases hrule' with
    | letIn hlookup' hcontains' hentries' hresult' =>
      rw [hlookup] at hlookup'
      cases hlookup'
      cases hcanonical.eq_of_entries_eq hcontains hcontains' (hentries.trans hentries'.symm)
      obtain ⟨rfl, rfl⟩ := hresult.unique hresult'
      exact ⟨rfl, rfl⟩
  | letRec hmembers hresult =>
    cases hrule' with
    | letRec hmembers' hresult' =>
      obtain ⟨rfl, rfl⟩ := hmembers.unique hcanonical hmembers'
      obtain ⟨rfl, rfl⟩ := hresult.unique hresult'
      exact ⟨rfl, rfl⟩
  | matching hlookup hmatched hnext hcontains hentries hresult =>
    cases hrule' with
    | matching hlookup' hmatched' hnext' hcontains' hentries' hresult' =>
      rw [hlookup] at hlookup'
      cases hlookup'
      cases hmatched.unique hcanonical hmatched'
      rw [hnext] at hnext'
      cases hnext'
      cases hcanonical.eq_of_entries_eq hcontains hcontains' (hentries.trans hentries'.symm)
      obtain ⟨rfl, rfl⟩ := hresult.unique hresult'
      exact ⟨rfl, rfl⟩
  | defs hdefines hresult =>
    cases hrule' with
    | defs hdefines' hresult' =>
      obtain ⟨rfl, rfl⟩ := hdefines.unique hcanonical hdefines'
      obtain ⟨rfl, rfl⟩ := hresult.unique hresult'
      exact ⟨rfl, rfl⟩

end Whence
