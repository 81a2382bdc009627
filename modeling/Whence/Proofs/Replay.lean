import Whence.Proofs.Parts
import Whence.Proofs.Patterns
import Whence.Proofs.Rules.Forms

/-!
# Evaluating again

On a store that has all that an evaluation needs, the evaluation finds everything in place: it gives
the outcome that matching the node comes to and changes nothing but what it remembers.  It may still
run into the limit on nesting; no other error is possible.  A match never gives up its descent then,
for what it forces is there to the bottom, and patterns refer to earlier ones only.
-/

namespace Whence

variable {program : Program} {α β : Type} {store : Store} {env inner : EnvId} {expr : ExprId}
  {demand : DemandId} {node : NodeId} {scope : Scope}

theorem Demand.next?_of_accepts? {layer : Demand} {value : Value} {next : Next}
    (haccepts : layer.accepts? value = some next) : layer.next? = some next := by
  cases layer <;> cases value <;> simp_all [Demand.accepts?, Demand.next?]

mutual

/-- What a match comes to is followed by what may follow its demand. -/
theorem Settles.follows (hpatterned : program.Patterned) {allowed : NodeId → Prop} {node : NodeId}
    {demand : DemandId} {outcome : Outcome} :
    Settles program store allowed node demand outcome → program.Follows demand outcome.next
  | .bind hdemand _ _ => hpatterned.follows_of_next? (by rw [hdemand]; rfl)
  | .everything hdemand _ => hpatterned.follows_of_next? (by rw [hdemand]; rfl)
  | .kind _ _ haccepts => hpatterned.follows_of_next? (Demand.next?_of_accepts? haccepts)
  | .constructor hdemand _ _ hcase hargs =>
    hargs.follows hpatterned (hpatterned.follows_of_case? (by rw [hdemand]; exact hcase))

theorem SettlesArgs.follows (hpatterned : program.Patterned) {allowed : NodeId → Prop}
    {demand : DemandId} {outcome final : Outcome} {args : List NodeId} :
    SettlesArgs program store allowed outcome args final →
      program.Follows demand outcome.next → program.Follows demand final.next
  | .nil, hfollows => hfollows
  | .cons hnext hmatched _ _ hrest, hfollows =>
    hrest.follows hpatterned
      (Program.Patterned.follows_trans (hnext ▸ hfollows) (hmatched.follows hpatterned))

end

theorem Error.isLimit_of_isExceeded {error : Error} (hexceeded : error.isExceeded = true) :
    error.isLimit = true := by
  cases error with
  | depthExceeded _ => rfl
  | _ => cases hexceeded

/-- On every machine with this store that remembers what is right, the computation gives the result,
unless it nests too deeply.  In either case the store stays as it is. -/
def Repeats (program : Program) (store : Store) (computation : Evaluating α) (result : α) : Prop :=
  ∀ machine : Machine, machine.store = store → machine.Consistent program →
    ∃ final : Machine, final.store = store ∧ final.Consistent program ∧
      (computation machine = .ok result final ∨
        ∃ error, computation machine = .error error final ∧ error.isExceeded = true)

namespace Repeats

theorem of_pure (result : α) : Repeats program store (pure result) result :=
  fun machine hstore hconsistent ↦ ⟨machine, hstore, hconsistent, .inl rfl⟩

theorem of_exceeded {error : Error} (hexceeded : error.isExceeded = true) (result : α) :
    Repeats program store (throw error) result :=
  fun machine hstore hconsistent ↦ ⟨machine, hstore, hconsistent, .inr ⟨error, rfl, hexceeded⟩⟩

theorem bind {computation : Evaluating α} {next : α → Evaluating β} {middle : α} {result : β}
    (hfirst : Repeats program store computation middle)
    (hsecond : Repeats program store (next middle) result) :
    Repeats program store (computation >>= next) result := by
  intro machine hstore hconsistent
  obtain ⟨final, hstore', hconsistent', hrun | ⟨error, hrun, hexceeded⟩⟩ :=
    hfirst machine hstore hconsistent
  · simp only [Bind.bind, EStateM.bind, hrun]
    exact hsecond final hstore' hconsistent'
  · simp only [Bind.bind, EStateM.bind, hrun]
    exact ⟨final, hstore', hconsistent', .inr ⟨error, rfl, hexceeded⟩⟩

theorem inspect {read : Store → α} {next : α → Evaluating β} {result : β}
    (hnext : Repeats program store (next (read store)) result) :
    Repeats program store (Machine.inspect read >>= next) result := by
  intro machine hstore hconsistent
  subst hstore
  exact hnext machine rfl hconsistent

theorem change {operation : Store → α × Store} {result : α}
    (hoperation : operation store = (result, store)) :
    Repeats program store (Machine.change operation) result := by
  rintro machine rfl hconsistent
  refine ⟨machine, rfl, hconsistent, .inl ?_⟩
  rw [Machine.change_eq, hoperation]

theorem register (hlookup : store.lookup? (.evaluation env expr) = some node) :
    Repeats program store (Machine.change fun store ↦ store.register (.evaluation env expr)) node :=
  change (Store.register_of_lookup hlookup)

theorem extend (hcanonical : store.envs.Canonical) (henv : store.envs.Contains env)
    (hinner : store.envs.Contains inner) {name : Symbol} {binding : Binding}
    (hentries : store.envs.entries inner =
      (name, binding) :: store.envs.entries env) :
    Repeats program store (Machine.change fun store ↦ store.extend env name binding) inner := by
  refine change ?_
  rw [Store.extend, Environments.extend_eq_of_entries hcanonical henv hinner hentries]

theorem concat (hcanonical : store.envs.Canonical) (henv : store.envs.Contains env)
    (hinner : store.envs.Contains inner) {front : EnvId}
    (hentries : store.envs.entries inner =
      store.envs.entries front ++ store.envs.entries env) :
    Repeats program store (Machine.change fun store ↦ store.concat front env) inner := by
  refine change ?_
  rw [Store.concat, Environments.concat_eq_of_entries hcanonical henv hinner hentries]

theorem perform {operation : Storing α} {result : α}
    (hoperation : operation store = .ok result store) :
    Repeats program store (Machine.perform operation) result := by
  rintro machine rfl hconsistent
  exact ⟨machine, rfl, hconsistent, .inl (Machine.perform_ok hoperation)⟩

theorem write (hrooted : store.Rooted)
    (hlookup : store.lookup? (.evaluation env expr) = some node) {explanation : Explanation}
    {value : Value} (hknown : store.knowledge? node = some (.of explanation value)) :
    Repeats program store
      (Machine.perform (Store.write (.evaluation env expr) (.of explanation value))) node :=
  perform (Store.write_of_known hrooted hlookup hknown (Knowledge.isBlank_of _ _) (merge_self _))

theorem closeGroup (hcanonical : store.envs.Canonical)
    (hcloses : Closes program store scope env) :
    Repeats program store (Rules.closeGroup program scope) env := by
  have hextend := hcloses.extendAll_eq hcanonical
  rw [Program.recursiveBindings] at hextend
  unfold Rules.closeGroup
  refine change ?_
  rw [hextend]

theorem closeEntry (hrooted : store.Rooted)
    (hcloses : Closes program store scope env) {entry : GroupEntry}
    (hholds : HoldsClosure store scope env entry.function node) :
    Repeats program store (Rules.closeEntry program scope entry) node :=
  bind (closeGroup hrooted.envs hcloses) (write hrooted hholds.lookup hholds.knowledge)

theorem closeMembers (hrooted : store.Rooted) {members : List Member}
    (hmembers : Members program store scope env members) :
    Repeats program store (Rules.closeMembers program scope) members := by
  obtain ⟨hcloses, hholds⟩ := hmembers
  rw [Rules.closeMembers]
  generalize (program.group scope.group).entries = entries at hholds
  induction hholds with
  | nil => exact of_pure []
  | cons hfirst _ ih =>
    rw [List.mapM_cons]
    refine bind (bind (closeEntry hrooted hcloses hfirst) (of_pure _)) ?_
    exact bind ih (of_pure _)

theorem scopeMembers (hrooted : store.Rooted) {members : List Member}
    {scope : Option Scope} (hmembers : ScopeMembers program store members scope) :
    Repeats program store (Rules.scopeMembers program scope) members := by
  cases scope with
  | none =>
    cases hmembers
    exact of_pure []
  | some scope =>
    obtain ⟨env, hmembers⟩ := hmembers
    exact closeMembers hrooted hmembers

theorem resolve (hrooted : store.Rooted) (name : Symbol) {binding : Binding}
    (hresolves : Resolves program store binding node) :
    Repeats program store (Rules.resolve program name binding) node := by
  cases hresolves with
  | node => exact of_pure node
  | recursive hentry hcloses hholds =>
    simp only [Rules.resolve, hentry]
    exact closeEntry hrooted hcloses hholds

theorem primitive {primitive : Primitive}
    (hlookup : store.library.lookup primitive = some node) :
    Repeats program store (Machine.perform (Store.primitive primitive)) node :=
  perform (Store.primitive_of_some hlookup)

theorem registerAll {args : List ExprId} {nodes : List NodeId}
    (hregistered : Registered store env args nodes) :
    Repeats program store (Rules.registerAll env args) nodes := by
  induction args generalizing nodes with
  | nil =>
    cases nodes with
    | nil => exact of_pure []
    | cons _ _ => cases hregistered
  | cons arg args ih =>
    cases nodes with
    | nil => cases hregistered
    | cons node nodes =>
      simp only [Registered, List.map_cons, List.cons.injEq] at hregistered
      exact bind (register hregistered.1) (bind (ih hregistered.2) (of_pure _))

theorem define (hrooted : store.Rooted) {final : EnvId} {definitions : List Definition}
    {explanations : List DefinitionExplanation}
    (hdefines : Defines program store env definitions final explanations)
    (henv : store.envs.Contains env) :
    Repeats program store (Rules.define program env definitions) (final, explanations) := by
  induction hdefines with
  | nil => exact of_pure _
  | value hlookup hinner hentries _ ih =>
    exact bind (register hlookup) (bind (extend hrooted.envs henv hinner hentries)
      (bind (ih hinner) (of_pure _)))
  | primitive hprimitive hlookup hinner hentries _ ih =>
    unfold Rules.define
    rw [hprimitive]
    exact bind (primitive hlookup) (bind (extend hrooted.envs henv hinner hentries)
      (bind (ih hinner) (of_pure _)))
  | group hmembers _ ih =>
    exact bind (closeMembers hrooted hmembers) (bind (closeGroup hrooted.envs hmembers.1)
      (bind (ih hmembers.1.contains) (of_pure _)))

/-! ## Matching -/

theorem forceAll {matchOne : NodeId → DemandId → Evaluating Outcome} {parts : List NodeId}
    (hparts : ∀ part ∈ parts, ∃ outcome, Repeats program store (matchOne part .everything) outcome) :
    Repeats program store (Matching.forceAll (fun part ↦ matchOne part .everything) parts) () := by
  induction parts with
  | nil => exact of_pure ()
  | cons part parts ih =>
    obtain ⟨outcome, hpart⟩ := hparts part List.mem_cons_self
    exact bind hpart (ih fun part hpart ↦ hparts part (List.mem_cons_of_mem _ hpart))

theorem arguments (hpatterned : program.Patterned) (hcanonical : store.envs.Canonical)
    (hdemand : program.IsPattern demand) {matchOne : NodeId → DemandId → Evaluating Outcome}
    (hmatch : ∀ {node following outcome}, program.IsPattern following →
      following.index < demand.index → Settled program store node following outcome →
        Repeats program store (matchOne node following) outcome)
    (count : Nat) {outcome final : Outcome} {args : List NodeId}
    (hfollows : program.Follows demand outcome.next) (henv : store.envs.Contains outcome.env)
    (hargs : SettlesArgs program store (fun _ ↦ True) outcome args final) :
    Repeats program store (Matching.arguments program count matchOne outcome args) final := by
  induction args generalizing outcome with
  | nil =>
    cases hargs
    exact of_pure _
  | cons arg args ih =>
    cases hargs with
    | cons hnext hmatched hinner hentries hrest =>
      obtain ⟨hpattern, hlt⟩ := hfollows hdemand _ hnext
      have hfollows' :=
        Program.Patterned.follows_trans (hnext ▸ hfollows) (hmatched.follows hpatterned)
      unfold Matching.arguments
      simp only [hnext]
      exact bind (hmatch hpattern hlt hmatched) (bind (concat hcanonical henv hinner hentries)
        (ih hfollows' hinner hrest))

theorem matchBind (hcanonical : store.envs.Canonical) {name : Symbol} {next : Next}
    (hdemand : program.demand demand = .bind name next) {outcome : Outcome}
    (hsettled : Settled program store node demand outcome) :
    Repeats program store (Matching.bind node name next) outcome := by
  cases hsettled with
  | bind hdemand' hinner hentries =>
    rw [hdemand] at hdemand'
    cases hdemand'
    refine bind (extend hcanonical hcanonical.contains_empty hinner ?_) (of_pure _)
    rw [hentries, hcanonical.entries_empty]
  | everything hdemand' _ => simp [hdemand] at hdemand'
  | kind _ _ haccepts => simp [hdemand, Demand.accepts?] at haccepts
  | constructor hdemand' _ _ _ _ => simp [hdemand] at hdemand'

theorem within_known (evaluate : Evaluator) {steps : Nat}
    (hbind : (program.demand demand).isBind = false) {value : Value}
    (hvalue : store.value? node = some value) {outcome : Outcome}
    (hrepeats : Repeats program store
      (Matching.value program (Matching.within program evaluate steps) node demand value) outcome) :
    Repeats program store (Matching.within program evaluate (steps + 1) node demand) outcome := by
  rintro machine rfl hconsistent
  rw [Matching.within_of_value evaluate steps hbind hvalue]
  exact hrepeats machine rfl hconsistent

/-- Forcing what is there to the bottom looks at known nodes only. -/
theorem within_everything (hregular : program.Regular) (evaluate : Evaluator) {steps : Nat}
    {next : Next} (hdemand : program.demand demand = .everything next)
    (hends : store.EndsWithin steps node) :
    Repeats program store (Matching.within program evaluate steps node demand)
      (.plain node next) := by
  induction steps generalizing node demand next with
  | zero => exact hends.elim
  | succ steps ih =>
    obtain ⟨value, hvalue, hparts⟩ := hends
    refine within_known evaluate (by rw [hdemand]; rfl) hvalue ?_
    rw [Matching.value_of_everything hdemand]
    refine bind (forceAll fun part hpart ↦ ?_) (of_pure _)
    exact ⟨_, ih hregular.everything (hparts part hpart)⟩

/-- A match with a pattern looks at known nodes only, once it is settled, and needs no more steps than
the number of the demand says. -/
theorem within_pattern (hpatterned : program.Patterned) (hcanonical : store.envs.Canonical)
    (evaluate : Evaluator) {steps : Nat} (hdemand : program.IsPattern demand)
    (hsteps : demand.index < steps) {outcome : Outcome}
    (hsettled : Settled program store node demand outcome) :
    Repeats program store (Matching.within program evaluate steps node demand) outcome := by
  induction steps generalizing node demand outcome with
  | zero => exact absurd hsteps (Nat.not_lt_zero _)
  | succ steps ih =>
    cases hbind : (program.demand demand).isBind with
    | true =>
      obtain ⟨name, next, hlayer⟩ := Demand.eq_bind hbind
      rw [Matching.within_bind evaluate steps hlayer]
      exact matchBind hcanonical hlayer hsettled
    | false =>
      cases hsettled with
      | bind hlayer _ _ => simp [hlayer, Demand.isBind] at hbind
      | everything hlayer _ => exact ((hpatterned.layer_suits hdemand).1 _ hlayer).elim
      | kind _ hvalue haccepts =>
        refine within_known evaluate hbind hvalue ?_
        rw [Matching.value_of_accepts haccepts]
        exact of_pure _
      | constructor hlayer _ hvalue hcase hargs =>
        refine within_known evaluate hbind hvalue ?_
        rw [Matching.value_of_case hlayer hcase]
        refine arguments hpatterned hcanonical hdemand (fun hpattern hlt hsettled ↦ ?_) _
          (hpatterned.follows_of_case? (by rw [hlayer]; exact hcase)) hcanonical.contains_empty hargs
        exact ih hpattern (hlt.trans_le (Nat.le_of_lt_succ hsteps)) hsettled

theorem matchNode (hregular : program.Regular) (hpatterned : program.Patterned)
    (hcanonical : store.envs.Canonical) (reach : Nat) (evaluate : Evaluator) {outcome : Outcome}
    (hsettled : Settled program store node demand outcome) :
    Repeats program store (Matching.node program reach evaluate node demand) outcome := by
  refine inspect ?_
  obtain ⟨next, hlayer⟩ | hpattern := hpatterned.everything_or_isPattern demand
  · have hforced := hsettled.forced hlayer
    rw [hsettled.unique hcanonical (.everything hlayer hforced)]
    exact within_everything hregular evaluate hlayer (hforced.endsWithin.mono (by omega))
  · have hlt := hpattern.2
    exact within_pattern hpatterned hcanonical evaluate hpattern (by omega) hsettled

end Repeats

/-! ## Rules -/

/-- What has been reached is reached again. -/
def Replays (program : Program) (evaluate : Evaluator) : Prop :=
  ∀ {store : Store} {env expr demand outcome}, Sound program store →
    Reached program store env expr demand outcome →
      Repeats program store (evaluate env expr demand) outcome

/-- A node with a value has been reached by any demand that accepts its kind. -/
theorem Evaluated.reached {value : Value} {next : Next}
    (hknown : Known store env expr node value)
    (haccepts : (program.demand demand).accepts? value = some next) :
    Reached program store env expr demand (.plain node next) :=
  ⟨hknown.lookup, .kind trivial hknown.value haccepts⟩

namespace Repeats

variable {reach : Nat} {evaluate : Evaluator} {outcome : Outcome} {explanation : Explanation}
  {value : Value}

theorem given (hregular : program.Regular) (hpatterned : program.Patterned)
    (hrooted : store.Rooted)
    (hreached : Reached program store env expr demand outcome)
    (hknown : store.knowledge? outcome.node = some (.of .given value)) :
    Repeats program store (Rules.given program reach evaluate (.evaluation env expr) value demand)
      outcome :=
  bind (write hrooted hreached.lookup hknown)
    (matchNode hregular hpatterned hrooted.envs reach evaluate hreached.settled)

theorem function (hregular : program.Regular) (hpatterned : program.Patterned)
    (hrooted : store.Rooted)
    (hreached : Reached program store env expr demand outcome) {scope : Option Scope}
    (hknown : store.knowledge? outcome.node =
      some (.of .given (.closure ⟨env, expr, scope⟩))) :
    Repeats program store
      (Rules.given program reach evaluate (.evaluation env expr) (.closure ⟨env, expr, none⟩) demand)
      outcome :=
  bind (perform (Store.write_of_known hrooted hreached.lookup hknown (Knowledge.isBlank_of _ _)
    (Knowledge.merge_closure_without_scope _ _ _)))
    (matchNode hregular hpatterned hrooted.envs reach evaluate hreached.settled)

theorem explain (hrooted : store.Rooted)
    (hreached : Reached program store env expr demand outcome)
    (hknown : store.knowledge? outcome.node = some (.of explanation value))
    {source : NodeId} (hvalue : store.value? source = some value) :
    Repeats program store
      (Rules.explain (.evaluation env expr) explanation source { outcome with node := source })
      outcome := by
  refine inspect ?_
  rw [hvalue]
  exact bind (write hrooted hreached.lookup hknown) (of_pure _)

theorem lookup (hregular : program.Regular) (hpatterned : program.Patterned)
    (hrooted : store.Rooted)
    (hbind : (program.demand demand).isBind = false) {name : Symbol} {binding : Binding}
    {target : NodeId} (hreached : Reached program store env expr demand outcome)
    (hknown : store.knowledge? outcome.node = some (.of (.lookup name target) value))
    (hbinding : store.envs.get? env name = some binding)
    (hresolves : Resolves program store binding target)
    (hvalue : store.value? target = some value) :
    Repeats program store (Rules.lookup program reach evaluate env (.evaluation env expr) name demand)
      outcome := by
  have hsettled := hreached.settled.transfer (Store.value?_of_knowledge hknown) hvalue hbind
  refine inspect ?_
  rw [hbinding]
  exact bind (resolve hrooted name hresolves)
    (bind (matchNode hregular hpatterned hrooted.envs reach evaluate hsettled)
      (explain hrooted hreached hknown hvalue))

/-- The body of a form gives the outcome of the form, at another node. -/
theorem body (hreplays : Replays program evaluate) (hsound : Sound program store)
    (hbind : (program.demand demand).isBind = false)
    (hreached : Reached program store env expr demand outcome)
    (hknown : store.knowledge? outcome.node = some (.of explanation value))
    {body : ExprId} {result : NodeId} (hresult : Known store inner body result value) :
    Repeats program store (evaluate inner body demand) { outcome with node := result } :=
  hreplays hsound ⟨hresult.lookup,
    hreached.settled.transfer (Store.value?_of_knowledge hknown) hresult.value hbind⟩

theorem bodyOf {matched : Outcome} {body : ExprId} (hnext : matched.next = .body body)
    (demand : DemandId) : Repeats program store (Rules.bodyOf program matched demand) body := by
  simp only [Rules.bodyOf, hnext]
  exact of_pure body

theorem knownValue (hvalue : store.value? node = some value) :
    Repeats program store (Rules.knownValue node) value := by
  refine inspect ?_
  rw [hvalue]
  exact of_pure value

theorem compute {applied operand : NodeId} {right : Value} {primitive : PrimitiveValue}
    (hcomputes : Computes store (fun _ ↦ True) applied operand right primitive explanation
      value) :
    Repeats program store (Rules.compute applied operand right primitive) (.of explanation value) := by
  cases hcomputes with
  | unary happly =>
    rw [Rules.compute, happly]
    exact of_pure _
  | binary => exact of_pure _
  | partially _ hfirst happly =>
    rw [Rules.compute]
    refine bind (knownValue hfirst) ?_
    rw [happly]
    exact of_pure _

end Repeats

theorem Replays.step (hregular : program.Regular) (hpatterned : program.Patterned)
    {evaluate : Evaluator}
    (hreplays : Replays program evaluate) (reach : Nat) :
    Replays program (Rules.step program reach evaluate) := by
  intro store env expr demand outcome hsound hreached
  have hrooted := hsound.toRooted
  have hnode := hsound.contains_of_lookup hreached.lookup
  have henv := (hsound.evaluation hnode (hsound.address_of_lookup hreached.lookup)).1
  cases hbind : (program.demand demand).isBind with
  | true =>
    obtain ⟨name, next, hdemand⟩ := Demand.eq_bind hbind
    rw [Rules.step_of_bind hdemand]
    exact .bind (.register hreached.lookup) (.matchBind hrooted.envs hdemand hreached.settled)
  | false =>
    rw [Rules.step_of_not_bind hbind]
    obtain ⟨value, hvalue⟩ := hreached.settled.exists_value hbind
    obtain ⟨explanation, hknown⟩ := hsound.knowledge_of_value hvalue
    have hrule := hsound.rule hreached.lookup hknown
    have hbody {inner body result} (hresult : Known store inner body result value) :=
      Repeats.body hreplays hsound hbind hreached hknown hresult
    have hexplain {source} (hsource : store.value? source = some value) :=
      Repeats.explain hrooted hreached hknown hsource
    -- The rule that gave the value applies again, with the same parts.
    generalize program.expr expr = form at hrule
    cases hrule with
    | number => exact .given hregular hpatterned hrooted hreached hknown
    | text => exact .given hregular hpatterned hrooted hreached hknown
    | constructor hconstructor harity hregistered =>
      simp only [Rules.byForm, Rules.construct, hconstructor, if_pos harity]
      exact .bind (.registerAll hregistered) (.given hregular hpatterned hrooted hreached hknown)
    | function _ => exact .function hregular hpatterned hrooted hreached hknown
    | var hbinding hresolves _ htarget =>
      exact .lookup hregular hpatterned hrooted hbind hreached hknown hbinding hresolves htarget
    | op hbinding hresolves _ htarget =>
      exact .lookup hregular hpatterned hrooted hbind hreached hknown hbinding hresolves htarget
    | closure happlied hliteral hargument hmatched hnext hmembers hclosure hinner hentries hresult =>
      cases hmatched.node_eq
      have hfunction := hreplays hsound (happlied.reached (by rw [hregular.function]; rfl))
      refine .bind hfunction (.inspect ?_)
      simp only [Outcome.plain_node, happlied.value, Rules.applyClosure, hliteral]
      exact .bind (hreplays hsound ⟨hargument, hmatched⟩) (.bind (.bodyOf hnext _)
        (.bind (.scopeMembers hrooted hmembers) (.bind (.concat hrooted.envs hclosure hinner hentries)
          (.bind (hbody hresult) (hexplain hresult.value)))))
    | primitive happlied hoperand haccepts hcomputes =>
      have hfunction := hreplays hsound (happlied.reached (by rw [hregular.function]; rfl))
      refine .bind hfunction (.inspect ?_)
      simp only [Outcome.plain_node, happlied.value, Rules.applyPrimitive]
      exact .bind (hreplays hsound (hoperand.reached haccepts)) (.bind (.knownValue hoperand.value)
        (.bind (.compute hcomputes) (.bind (.write hrooted hreached.lookup hknown)
          (.matchNode hregular hpatterned hrooted.envs reach evaluate hreached.settled))))
    | letIn hlookup hinner hentries hresult =>
      exact .bind (.register hlookup) (.bind (.extend hrooted.envs henv hinner hentries)
        (.bind (hbody hresult) (hexplain hresult.value)))
    | letRec hmembers hresult =>
      exact .bind (.closeMembers hrooted hmembers) (.bind (.closeGroup hrooted.envs hmembers.1)
        (.bind (hbody hresult) (hexplain hresult.value)))
    | matching hscrutinee hmatched hnext hinner hentries hresult =>
      cases hmatched.node_eq
      exact .bind (hreplays hsound ⟨hscrutinee, hmatched⟩) (.bind (.bodyOf hnext _)
        (.bind (.concat hrooted.envs henv hinner hentries)
          (.bind (hbody hresult) (hexplain hresult.value))))
    | defs hdefines hresult =>
      exact .bind (.define hrooted hdefines henv)
        (.bind (hbody hresult) (hexplain hresult.value))

end Whence
