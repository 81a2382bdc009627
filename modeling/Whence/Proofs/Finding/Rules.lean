import Whence.Proofs.Finding.Matching
import Whence.Proofs.Nesting

/-!
# Evaluation answers what it is asked

Each rule is gone through once.  A rule that finds a value itself writes it and matches the node that
it has written.  A rule that evaluates a part under the same demand passes the outcome on: it copies
the value of the part to its own node, where the demand finds the same.  From the rules follows that
evaluation answers, to whatever depth it may be nested and whatever it remembers.
-/

namespace Whence

open Machine

variable {α : Type} {program : Program} {reach : Nat} {evaluate : Evaluator} {machine : Machine}
  {node : NodeId} {env : EnvId} {expr : ExprId} {demand : DemandId} {outcome : Outcome}

namespace Machine.Ensures

theorem closeGroup (hcoherent : machine.Coherent program) {scope : Scope}
    (hscope : machine.store.envs.Contains scope.env) :
    Ensures program (Rules.closeGroup program scope) machine
      fun inner final ↦ final.envs.Contains inner := by
  have hbindings : ∀ entry ∈ program.recursiveBindings scope,
      entry.2.Framed machine.store.envs := by
    intro entry hentry
    obtain ⟨_, -, rfl⟩ := List.mem_map.1 hentry
    exact hscope
  unfold Rules.closeGroup
  refine mono (extendAll hcoherent hscope hbindings ?_) fun _ hinner ↦ hinner.1
  rfl

theorem closeEntry (hcoherent : machine.Coherent program) {scope : Scope}
    (hscope : machine.store.envs.Contains scope.env) (entry : GroupEntry) :
    Ensures program (Rules.closeEntry program scope entry) machine fun _ _ ↦ True := by
  refine bind (closeGroup hcoherent hscope) fun {inner middle} hmiddle hinner ↦ ?_
  have haddress : (Address.evaluation inner entry.function).Framed middle.store.envs := hinner
  refine (perform hmiddle.coherent (.write hmiddle.coherent.store haddress ?_)).mono fun _ _ ↦ trivial
  rintro _ ⟨⟩
  refine ⟨hinner, ?_⟩
  rintro _ ⟨⟩
  exact hmiddle.refines.envs.contains hscope

theorem closeEntries (hcoherent : machine.Coherent program) {scope : Scope}
    (hscope : machine.store.envs.Contains scope.env) (entries : List GroupEntry) :
    Ensures program (entries.mapM fun entry ↦ do
      let closure ← Rules.closeEntry program scope entry
      pure (⟨entry.name, closure⟩ : Member)) machine fun _ _ ↦ True := by
  induction entries generalizing machine with
  | nil => exact of_pure hcoherent trivial
  | cons entry entries ih =>
    rw [List.mapM_cons]
    have hfirst : Ensures program (do
        let closure ← Rules.closeEntry program scope entry
        pure (⟨entry.name, closure⟩ : Member)) machine fun _ _ ↦ True :=
      bind (closeEntry hcoherent hscope entry) fun hmiddle _ ↦ of_pure hmiddle.coherent trivial
    refine bind hfirst fun hmiddle _ ↦ ?_
    exact bind (ih hmiddle.coherent (hmiddle.refines.envs.contains hscope)) fun hlast _ ↦
      of_pure hlast.coherent trivial

theorem scopeMembers (hcoherent : machine.Coherent program) {scope : Option Scope}
    (hscope : ∀ outer ∈ scope, machine.store.envs.Contains outer.env) :
    Ensures program (Rules.scopeMembers program scope) machine fun _ _ ↦ True := by
  cases scope with
  | none => exact of_pure hcoherent trivial
  | some outer => exact closeEntries hcoherent (hscope outer rfl) _

theorem resolve (hcoherent : machine.Coherent program) (name : Symbol) {binding : Binding}
    (hbinding : binding.Framed machine.store.envs) :
    Ensures program (Rules.resolve program name binding) machine fun _ _ ↦ True := by
  cases binding with
  | node id => exact of_pure hcoherent trivial
  | recursive scope position =>
    simp only [Rules.resolve]
    split
    · exact closeEntry hcoherent hbinding _
    · exact of_throw hcoherent _

theorem bodyOf (hcoherent : machine.Coherent program) (outcome : Outcome) (demand : DemandId) :
    Ensures program (Rules.bodyOf program outcome demand) machine fun _ _ ↦ True := by
  unfold Rules.bodyOf
  split
  · exact of_pure hcoherent trivial
  · exact of_throw hcoherent _

theorem knownValue (hcoherent : machine.Coherent program) (node : NodeId) :
    Ensures program (Rules.knownValue node) machine fun _ _ ↦ True := by
  refine inspect ?_
  cases machine.store.value? node with
  | some value => exact of_pure hcoherent trivial
  | none => exact inspect (of_throw hcoherent _)

theorem ofExcept (hcoherent : machine.Coherent program) (result : Except Error α) :
    Ensures program (MonadExcept.ofExcept result) machine fun value _ ↦ result = .ok value := by
  cases result with
  | ok value => exact of_pure hcoherent rfl
  | error error => exact of_throw hcoherent error

/-- What a primitive gives mentions no environment. -/
theorem compute (hcoherent : machine.Coherent program) (function operand : NodeId) (right : Value)
    (primitive : PrimitiveValue) :
    Ensures program (Rules.compute function operand right primitive) machine
      fun knowledge final ↦ knowledge.Framed final.envs := by
  cases primitive with
  | unary op =>
    refine bind (ofExcept hcoherent _) fun hmiddle happly ↦ of_pure hmiddle.coherent ?_
    rintro _ ⟨⟩
    exact (UnaryOp.apply_flat happly).framed
  | binary op =>
    refine of_pure hcoherent ?_
    rintro _ ⟨⟩
    trivial
  | partially op first =>
    refine bind (knownValue hcoherent first) fun hmiddle _ ↦ ?_
    refine bind (ofExcept hmiddle.coherent _) fun hlast happly ↦ of_pure hlast.coherent ?_
    rintro _ ⟨⟩
    exact (BinaryOp.apply_flat happly).framed

theorem registerAll (hcoherent : machine.Coherent program)
    (henv : machine.store.envs.Contains env) (args : List ExprId) :
    Ensures program (Rules.registerAll env args) machine fun _ _ ↦ True := by
  induction args generalizing machine with
  | nil => exact of_pure hcoherent trivial
  | cons arg args ih =>
    refine bind (register hcoherent henv arg) fun hmiddle _ ↦ ?_
    exact bind (ih hmiddle.coherent (hmiddle.refines.envs.contains henv)) fun hlast _ ↦
      of_pure hlast.coherent trivial

/-- The environment after a sequence of definitions has been handed out. -/
theorem define (hcoherent : machine.Coherent program) (henv : machine.store.envs.Contains env)
    (definitions : List Definition) :
    Ensures program (Rules.define program env definitions) machine
      fun result final ↦ final.envs.Contains result.1 := by
  induction definitions generalizing machine env with
  | nil => exact of_pure hcoherent henv
  | cons definition rest ih =>
    cases definition with
    | value name bound =>
      refine bind (register hcoherent henv bound) fun {node middle} hmiddle _ ↦ ?_
      refine bind (extend hmiddle.coherent (hmiddle.refines.envs.contains henv) name trivial)
        fun hlast hinner ↦ ?_
      exact bind (ih hlast.coherent hinner.1) fun hfinal hresult ↦ of_pure hfinal.coherent hresult
    | primitive name op =>
      unfold Rules.define
      split
      · exact of_throw hcoherent _
      · refine bind (perform hcoherent (.primitive hcoherent.store _)) fun hmiddle _ ↦ ?_
        refine bind (extend hmiddle.coherent (hmiddle.refines.envs.contains henv) name trivial)
          fun hlast hinner ↦ ?_
        exact bind (ih hlast.coherent hinner.1) fun hfinal hresult ↦ of_pure hfinal.coherent hresult
    | group group =>
      have hscope : machine.store.envs.Contains (Scope.mk env group).env := henv
      refine bind (closeEntries hcoherent hscope _) fun hmiddle _ ↦ ?_
      refine bind (closeGroup hmiddle.coherent (hmiddle.refines.envs.contains hscope))
        fun hlast hinner ↦ ?_
      exact bind (ih hlast.coherent hinner) fun hfinal hresult ↦ of_pure hfinal.coherent hresult

/-! ## Rules -/

/-- What agrees with a part agrees with the node to which the value of the part is copied. -/
theorem explain (hcoherent : machine.Coherent program)
    (henv : machine.store.envs.Contains env) (expr : ExprId) (explanation : Explanation)
    {source : NodeId} (hbind : (program.demand demand).isBind = false)
    (hagrees : Agrees program machine.store source demand outcome) :
    Ensures program (Rules.explain (.evaluation env expr) explanation source outcome) machine
      fun outcome final ↦ Answers program final env expr demand outcome := by
  obtain ⟨value, hvalue⟩ := hagrees.finds.exists_value hbind
  have haddress : (Address.evaluation env expr).Framed machine.store.envs := henv
  have hknowledge : (Knowledge.of explanation value).Framed machine.store.envs := by
    rintro _ ⟨⟩
    exact hcoherent.store.framed_value hvalue
  refine inspect ?_
  rw [hvalue]
  refine bind (perform hcoherent (.write hcoherent.store haddress hknowledge))
    fun {node middle} hmiddle hwritten ↦ ?_
  refine of_pure hmiddle.coherent ⟨hwritten.1, rfl, hmiddle.refines.envs.contains hagrees.contains, ?_⟩
  have htransfer := hagrees.finds.transfer hbind hvalue hmiddle.refines (hwritten.2 value rfl)
  rw [← Outcome.finding_refine hmiddle.refines hagrees.contains] at htransfer
  exact htransfer

section Evaluating

variable (hevaluate : evaluate.IsFaithful program)
include hevaluate

/-- The outcome of a part under the same demand is passed on. -/
theorem passed (hcoherent : machine.Coherent program)
    (henv : machine.store.envs.Contains env) {inner : EnvId}
    (hinner : machine.store.envs.Contains inner) (expr body : ExprId)
    (hbind : (program.demand demand).isBind = false) (explanation : Outcome → Explanation) :
    Ensures program (do
      let outcome ← evaluate inner body demand
      Rules.explain (.evaluation env expr) (explanation outcome) outcome.node outcome) machine
      fun outcome final ↦ Answers program final env expr demand outcome :=
  bind (hevaluate hcoherent hinner body demand) fun hmiddle hanswers ↦
    explain hmiddle.coherent (hmiddle.refines.envs.contains henv) expr _ hbind
      hanswers.agrees

theorem applyClosure (hcoherent : machine.Coherent program)
    (henv : machine.store.envs.Contains env) (expr : ExprId) (function : NodeId) {closure : Closure}
    (hclosure : (Value.closure closure).Framed machine.store.envs) (argument : ExprId)
    (hbind : (program.demand demand).isBind = false) :
    Ensures program
      (Rules.applyClosure program evaluate env (.evaluation env expr) function closure argument demand)
      machine fun outcome final ↦ Answers program final env expr demand outcome := by
  unfold Rules.applyClosure
  split
  case h_1 parameter _ =>
    refine bind (hevaluate hcoherent henv argument parameter) fun {matched _} hmatched _ ↦ ?_
    refine bind (bodyOf hmatched.coherent matched parameter) fun hbody _ ↦ ?_
    have hbody := hbody.trans hmatched
    have hclosure := hclosure.grow hbody.refines.envs
    refine bind (scopeMembers hbody.coherent hclosure.2) fun hmembers _ ↦ ?_
    refine bind (concat hmembers.coherent matched.env
      (hmembers.refines.envs.contains hclosure.1)) fun hjoined hinner ↦ ?_
    have henv := (hjoined.trans (hmembers.trans hbody)).refines.envs.contains henv
    exact passed hevaluate hjoined.coherent henv hinner.1 expr _ hbind _
  case h_2 => exact of_throw hcoherent _

variable (heverything : program.demand .everything = .everything .done)
include heverything

/-- The node that has been written is matched. -/
theorem written (hcoherent : machine.Coherent program)
    (henv : machine.store.envs.Contains env) (expr : ExprId) {knowledge : Knowledge}
    (hknowledge : knowledge.Framed machine.store.envs) (demand : DemandId) :
    Ensures program (do
      let node ← Machine.perform (Store.write (.evaluation env expr) knowledge)
      Matching.node program reach evaluate node demand) machine
      fun outcome final ↦ Answers program final env expr demand outcome := by
  have haddress : (Address.evaluation env expr).Framed machine.store.envs := henv
  refine bind (perform hcoherent (.write hcoherent.store haddress hknowledge))
    fun {node middle} hmiddle hwritten ↦ ?_
  refine (Matching.ensures_node heverything reach hevaluate hmiddle.coherent node demand).mono
    fun hrefines hagrees ↦ ?_
  have hnode := hagrees.node_eq
  subst hnode
  exact ⟨hrefines.lookup hwritten.1, hagrees⟩

theorem given (hcoherent : machine.Coherent program)
    (henv : machine.store.envs.Contains env) (expr : ExprId) (value : Value)
    (hvalue : value.Framed machine.store.envs) (demand : DemandId) :
    Ensures program (Rules.given program reach evaluate (.evaluation env expr) value demand) machine
      fun outcome final ↦ Answers program final env expr demand outcome := by
  refine written hevaluate heverything hcoherent henv expr ?_ demand
  rintro _ ⟨⟩
  exact hvalue

theorem lookup (hcoherent : machine.Coherent program)
    (henv : machine.store.envs.Contains env) (expr : ExprId) (name : Symbol)
    (hbind : (program.demand demand).isBind = false) :
    Ensures program (Rules.lookup program reach evaluate env (.evaluation env expr) name demand) machine
      fun outcome final ↦ Answers program final env expr demand outcome := by
  refine inspect ?_
  cases hbinding : machine.store.envs.get? env name with
  | none => exact of_throw hcoherent _
  | some binding =>
    have hframed := hcoherent.store.bindings (Environments.mem_of_get? hbinding)
    refine bind (resolve hcoherent name hframed) fun {target _} htarget _ ↦ ?_
    refine bind (Matching.ensures_node heverything reach hevaluate htarget.coherent target demand)
      fun hmatched hagrees ↦ ?_
    have henv := (hmatched.trans htarget).refines.envs.contains henv
    exact explain hmatched.coherent henv expr _ hbind hagrees

theorem applyPrimitive (hcoherent : machine.Coherent program)
    (henv : machine.store.envs.Contains env) (expr : ExprId) (function : NodeId)
    (primitive : PrimitiveValue) (argument : ExprId) (demand : DemandId) :
    Ensures program (Rules.applyPrimitive program reach evaluate env (.evaluation env expr) function
      primitive argument demand) machine
      fun outcome final ↦ Answers program final env expr demand outcome := by
  refine bind (hevaluate hcoherent henv argument _) fun {operand _} hoperand _ ↦ ?_
  refine bind (knownValue hoperand.coherent operand.node) fun {right _} hright _ ↦ ?_
  refine bind (compute hright.coherent function operand.node right primitive)
    fun hcomputed hknowledge ↦ ?_
  have henv := (hcomputed.trans (hright.trans hoperand)).refines.envs.contains henv
  exact written hevaluate heverything hcomputed.coherent henv expr hknowledge demand

theorem apply (hcoherent : machine.Coherent program)
    (henv : machine.store.envs.Contains env) (expr function argument : ExprId)
    (hbind : (program.demand demand).isBind = false) :
    Ensures program
      (Rules.apply program reach evaluate env (.evaluation env expr) function argument demand) machine
      fun outcome final ↦ Answers program final env expr demand outcome := by
  refine bind (hevaluate hcoherent henv function .function) fun {applied middle} happlied _ ↦ ?_
  have henv := happlied.refines.envs.contains henv
  refine inspect ?_
  cases hvalue : middle.store.value? applied.node with
  | none => exact of_throw happlied.coherent _
  | some value =>
    cases value with
    | closure closure =>
      exact applyClosure hevaluate happlied.coherent henv expr applied.node
        (happlied.coherent.store.framed_value hvalue) argument hbind
    | primitive primitive =>
      exact applyPrimitive hevaluate heverything happlied.coherent henv expr applied.node
        primitive argument demand
    | _ => exact of_throw happlied.coherent _

theorem construct (hcoherent : machine.Coherent program)
    (henv : machine.store.envs.Contains env) (expr : ExprId) (tag : Symbol) (args : List ExprId)
    (demand : DemandId) :
    Ensures program
      (Rules.construct program reach evaluate env (.evaluation env expr) tag args demand) machine
      fun outcome final ↦ Answers program final env expr demand outcome := by
  unfold Rules.construct
  split
  · exact of_throw hcoherent _
  · split
    · refine bind (registerAll hcoherent henv args) fun hargs _ ↦ ?_
      exact given hevaluate heverything hargs.coherent (hargs.refines.envs.contains henv)
        expr (.constructor tag _) trivial demand
    · exact of_throw hcoherent _

/-- The rule for every form of expression answers. -/
theorem byForm (hcoherent : machine.Coherent program)
    (henv : machine.store.envs.Contains env) (form : Expr) (expr : ExprId)
    (hbind : (program.demand demand).isBind = false) :
    Ensures program (Rules.byForm program reach evaluate form env expr demand) machine
      fun outcome final ↦ Answers program final env expr demand outcome := by
  cases form with
  | number value =>
    exact given hevaluate heverything hcoherent henv expr (.number value) trivial demand
  | text value =>
    exact given hevaluate heverything hcoherent henv expr (.text value) trivial demand
  | constructor tag args =>
    exact construct hevaluate heverything hcoherent henv expr tag args demand
  | function parameter =>
    exact given hevaluate heverything hcoherent henv expr (.closure ⟨env, expr, none⟩)
      ⟨henv, nofun⟩ demand
  | var name => exact lookup hevaluate heverything hcoherent henv expr name hbind
  | op name => exact lookup hevaluate heverything hcoherent henv expr name hbind
  | app function argument =>
    exact apply hevaluate heverything hcoherent henv expr function argument hbind
  | letIn name bound body =>
    refine bind (register hcoherent henv bound) fun hbound _ ↦ ?_
    have henv := hbound.refines.envs.contains henv
    refine bind (extend hbound.coherent henv name trivial) fun hextended hinner ↦ ?_
    exact passed hevaluate hextended.coherent (hextended.refines.envs.contains henv)
      hinner.1 expr body hbind _
  | letRec group body =>
    have hscope : machine.store.envs.Contains (Scope.mk env group).env := henv
    refine bind (closeEntries hcoherent hscope _) fun hclosed _ ↦ ?_
    have hscope := hclosed.refines.envs.contains hscope
    refine bind (closeGroup hclosed.coherent hscope) fun hextended hinner ↦ ?_
    exact passed hevaluate hextended.coherent (hextended.refines.envs.contains hscope)
      hinner expr body hbind _
  | matching scrutinee cases =>
    refine bind (hevaluate hcoherent henv scrutinee cases) fun {matched _} hmatched _ ↦ ?_
    refine bind (bodyOf hmatched.coherent matched cases) fun hbody _ ↦ ?_
    have henv := (hbody.trans hmatched).refines.envs.contains henv
    refine bind (concat hbody.coherent matched.env henv) fun hextended hinner ↦ ?_
    exact passed hevaluate hextended.coherent (hextended.refines.envs.contains henv)
      hinner.1 expr _ hbind _
  | defs definitions body =>
    refine bind (define hcoherent henv definitions) fun {result _} hdefined hinner ↦ ?_
    exact passed hevaluate hdefined.coherent (hdefined.refines.envs.contains henv) hinner
      expr body hbind _

/-- A step of evaluation answers if the evaluation of parts does. -/
theorem step : Evaluator.IsFaithful program (Rules.step program reach evaluate) := by
  intro machine env hcoherent henv expr demand
  cases hbind : (program.demand demand).isBind with
  | true =>
    obtain ⟨name, next, hdemand⟩ := Demand.eq_bind hbind
    rw [Rules.step_of_bind hdemand]
    refine bind (register hcoherent henv expr) fun {node middle} hnode hlookup ↦ ?_
    refine (Matching.ensures_bind hnode.coherent hdemand node).mono fun hrefines hagrees ↦ ?_
    have hsame := hagrees.node_eq
    subst hsame
    exact ⟨hrefines.lookup hlookup, hagrees⟩
  | false =>
    rw [Rules.step_of_not_bind hbind]
    exact byForm hevaluate heverything hcoherent henv (program.expr expr) expr hbind

end Evaluating

end Machine.Ensures

/-- Remembering an outcome that answers its request keeps a machine coherent. -/
theorem Machine.Coherent.remember (hcoherent : machine.Coherent program) (settings : Settings)
    (hanswers : Answers program machine.store env expr demand outcome) :
    (Machine.remember settings ⟨env, expr, demand⟩ outcome machine).Coherent program where
  store := by
    rw [store_remember]
    exact hcoherent.store
  revision := by rw [revision_remember, hcoherent.revision]
  memo hfound := by
    rw [store_remember]
    obtain ⟨rfl, rfl⟩ | hfound := mem_of_remember hfound
    · exact hanswers
    · exact hcoherent.memo hfound

theorem Machine.Coherent.remembered (hcoherent : machine.Coherent program) {settings : Settings}
    {request : Request} (hremembered : machine.remembered? settings request = some outcome) :
    Answers program machine.store request.env request.expr request.demand outcome := by
  unfold remembered? at hremembered
  split at hremembered
  · exact hcoherent.memo hremembered
  · cases hremembered

theorem Machine.Coherent.synchronize (hcoherent : machine.Coherent program) :
    machine.synchronize = machine := by
  refine synchronize_of_revision ?_
  rw [hcoherent.revision, Store.current, hcoherent.store.revisions]

/-- A remembered outcome is as good as the one that would be computed. -/
theorem Machine.Ensures.memoized (settings : Settings) {compute : Evaluating Outcome}
    (hcoherent : machine.Coherent program)
    (hcompute : Ensures program compute machine
      fun outcome final ↦ Answers program final env expr demand outcome) :
    Ensures program (Machine.memoized settings ⟨env, expr, demand⟩ compute) machine
      fun outcome final ↦ Answers program final env expr demand outcome := by
  unfold Ensures Stops
  cases hremembered : machine.remembered? settings ⟨env, expr, demand⟩ with
  | some outcome =>
    rw [memoized_of_some compute hcoherent.synchronize hremembered]
    exact ⟨.refl hcoherent, hcoherent.remembered hremembered⟩
  | none =>
    rw [memoized_of_none compute hcoherent.synchronize hremembered]
    cases hrun : compute machine with
    | error error final =>
      have hfollows := Stops.error hcompute hrun
      exact hfollows
    | ok outcome final =>
      obtain ⟨hfollows, hanswers⟩ := Stops.ok hcompute hrun
      refine ⟨⟨hfollows.coherent.remember settings hanswers, ?_⟩, ?_⟩
      · rw [store_remember]
        exact hfollows.refines
      · rw [store_remember]
        exact hanswers

/-- Evaluation answers, however deep it may be nested. -/
theorem Evaluation.isFaithful_nested (heverything : program.demand .everything = .everything .done)
    (settings : Settings) (depth : Nat) :
    Evaluator.IsFaithful program (nested program settings depth) := by
  induction depth with
  | zero =>
    exact fun hcoherent _ _ _ ↦ .memoized settings hcoherent (.of_throw hcoherent _)
  | succ depth ih =>
    exact fun hcoherent henv expr demand ↦
      .memoized settings hcoherent (Ensures.step ih heverything hcoherent henv expr demand)

end Whence
