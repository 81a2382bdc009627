import Whence.Proofs.Finding.Rules
import Whence.Proofs.Knots.Matching

/-!
# Evaluation keeps stores knotted

Recursive bindings are made only where a group is closed, and there its closures are made as well.  A
recursive binding that is looked up belongs to a group that has been closed, so closing it once more
finds the closure.  All other writes may say what they like: they cannot change the closure of
a member.
-/

namespace Whence

open Machine

variable {α : Type} {program : Program} {reach : Nat} {evaluate : Evaluator} {machine : Machine}
  {store : Store} {node : NodeId} {env : EnvId} {expr : ExprId} {demand : DemandId}
  {outcome : Outcome}

namespace Store

/-- The node of a write has the explanation that was written. -/
theorem Ensures.write_explains (hcoherent : store.Coherent) {address : Address}
    {knowledge : Knowledge} {explanation : Explanation} (haddress : address.Framed store.envs)
    (hknowledge : knowledge.Framed store.envs)
    (hexplanation : knowledge.explanation = some explanation) :
    Ensures (Store.write address knowledge) store fun node final ↦
      final.lookup? address = some node ∧ final.explanation? node = some explanation := by
  have hwrite := Ensures.write hcoherent haddress hknowledge
  refine Stops.of_run (fun {node final} hrun ↦ ?_) hwrite.error
  obtain ⟨hfollows, hlookup, -⟩ := hwrite.ok hrun
  refine ⟨hfollows, hlookup, ?_⟩
  have hblank : knowledge.isBlank = false := by
    rw [Knowledge.isBlank, hexplanation]
    rfl
  have hcommits := hcoherent.intact.write_commits hrun
  rw [Store.current, hcoherent.revisions] at hcommits
  obtain ⟨held, hheld, hbelow⟩ := hcommits.held?_self hblank
  rw [hfollows.coherent.history] at hheld
  have hknown : final.knowledge? node = some held := by
    cases hknown : final.knowledge? node with
    | none =>
      rw [hknown] at hheld
      cases hheld
    | some known =>
      rw [hknown] at hheld
      exact hheld
  rw [explanation?, hknown]
  exact Knowledge.explanation_of_below hbelow hexplanation

end Store

namespace Machine.KeepsKnots

theorem closeMembers (hknotted : machine.Knotted program) {scope : Scope}
    (hscope : machine.store.envs.Contains scope.env) :
    KeepsKnots program (Rules.closeMembers program scope) machine
      fun members final ↦ ∃ closed, Members program final scope closed members := by
  obtain ⟨closed, members, store, hclose, hclosing⟩ := hknotted.store.closeMembers hscope
  exact of_run hclose (hknotted.advances hclosing.knotted hclosing.steps) ⟨closed, hclosing.members⟩

/-- The environment of a group that has been closed is found. -/
theorem closeGroup (hknotted : machine.Knotted program) {scope : Scope} {closed : EnvId}
    {members : List Member} (hmembers : Members program machine.store scope closed members) :
    KeepsKnots program (Rules.closeGroup program scope) machine
      fun inner final ↦ final.envs.Contains inner := by
  have hclosed : Closed program machine.store scope closed members :=
    .of_members hknotted.store.coherent hmembers
  exact of_run hclosed.found.closeGroup_eq (.refl hknotted) hmembers.1.contains

theorem scopeMembers (hknotted : machine.Knotted program) {scope : Option Scope}
    (hscope : ∀ outer ∈ scope, machine.store.envs.Contains outer.env) :
    KeepsKnots program (Rules.scopeMembers program scope) machine fun _ _ ↦ True := by
  cases scope with
  | none => exact of_pure hknotted trivial
  | some outer => exact (closeMembers hknotted (hscope outer rfl)).mono fun _ _ ↦ trivial

/-- A binding leads to the node that it resolves to. -/
theorem resolve (hknotted : machine.Knotted program) (name : Symbol) {binding : Binding}
    (hbinding : (name, binding) ∈ machine.store.envs.entries env) :
    KeepsKnots program (Rules.resolve program name binding) machine
      fun target final ↦ Resolves program final binding target := by
  cases binding with
  | node id => exact of_pure hknotted .node
  | recursive scope position =>
    obtain ⟨closed, members, hmembers⟩ := hknotted.store.knots hbinding
    have hclosed : Closed program machine.store scope closed members :=
      .of_members hknotted.store.coherent hmembers
    cases hentry : (program.group scope.group).entries[position]? with
    | none =>
      simp only [Rules.resolve, hentry]
      exact of_throw hknotted _
    | some entry =>
      obtain ⟨target, hholds⟩ := hmembers.2.mem (List.mem_of_getElem? hentry)
      exact of_run (hclosed.resolve_eq name hentry hholds) (.refl hknotted)
        (.recursive hentry hmembers.1 hholds)

theorem bodyOf (hknotted : machine.Knotted program) (outcome : Outcome) (demand : DemandId) :
    KeepsKnots program (Rules.bodyOf program outcome demand) machine fun _ _ ↦ True := by
  unfold Rules.bodyOf
  split
  · exact of_pure hknotted trivial
  · exact of_throw hknotted _

theorem knownValue (hknotted : machine.Knotted program) (node : NodeId) :
    KeepsKnots program (Rules.knownValue node) machine fun _ _ ↦ True := by
  refine inspect ?_
  cases machine.store.value? node with
  | some value => exact of_pure hknotted trivial
  | none => exact inspect (of_throw hknotted _)

theorem ofExcept (hknotted : machine.Knotted program) (result : Except Error α) :
    KeepsKnots program (MonadExcept.ofExcept result) machine fun value _ ↦ result = .ok value := by
  cases result with
  | ok value => exact of_pure hknotted rfl
  | error error => exact of_throw hknotted error

/-- What a primitive gives mentions no environment. -/
theorem compute (hknotted : machine.Knotted program) (function operand : NodeId) (right : Value)
    (primitive : PrimitiveValue) :
    KeepsKnots program (Rules.compute function operand right primitive) machine
      fun knowledge final ↦ knowledge.Framed final.envs := by
  cases primitive with
  | unary op =>
    refine bind (ofExcept hknotted _) fun hmiddle happly ↦ of_pure hmiddle.knotted ?_
    rintro _ ⟨⟩
    exact (UnaryOp.apply_flat happly).framed
  | binary op =>
    refine of_pure hknotted ?_
    rintro _ ⟨⟩
    trivial
  | partially op first =>
    refine bind (knownValue hknotted first) fun hmiddle _ ↦ ?_
    refine bind (ofExcept hmiddle.knotted _) fun hlast happly ↦ of_pure hlast.knotted ?_
    rintro _ ⟨⟩
    exact (BinaryOp.apply_flat happly).framed

theorem registerAll (hknotted : machine.Knotted program)
    (henv : machine.store.envs.Contains env) (args : List ExprId) :
    KeepsKnots program (Rules.registerAll env args) machine fun _ _ ↦ True := by
  induction args generalizing machine with
  | nil => exact of_pure hknotted trivial
  | cons arg args ih =>
    refine bind (register hknotted henv arg) fun hmiddle _ ↦ ?_
    exact bind (ih hmiddle.knotted (hmiddle.contains henv)) fun hlast _ ↦
      of_pure hlast.knotted trivial

/-- The environment after a sequence of definitions has been handed out. -/
theorem define (hknotted : machine.Knotted program) (henv : machine.store.envs.Contains env)
    (definitions : List Definition) :
    KeepsKnots program (Rules.define program env definitions) machine
      fun result final ↦ final.envs.Contains result.1 := by
  induction definitions generalizing machine env with
  | nil => exact of_pure hknotted henv
  | cons definition rest ih =>
    cases definition with
    | value name bound =>
      refine bind (register hknotted henv bound) fun {node middle} hmiddle _ ↦ ?_
      refine bind (extend hmiddle.knotted (hmiddle.contains henv) name node) fun hlast hinner ↦ ?_
      exact bind (ih hlast.knotted hinner) fun hfinal hresult ↦ of_pure hfinal.knotted hresult
    | primitive name op =>
      unfold Rules.define
      split
      · exact of_throw hknotted _
      · refine bind (primitive hknotted _) fun {node middle} hmiddle _ ↦ ?_
        refine bind (extend hmiddle.knotted (hmiddle.contains henv) name node) fun hlast hinner ↦ ?_
        exact bind (ih hlast.knotted hinner) fun hfinal hresult ↦ of_pure hfinal.knotted hresult
    | group group =>
      have hscope : machine.store.envs.Contains (Scope.mk env group).env := henv
      refine bind (closeMembers hknotted hscope) fun hmiddle ⟨_, hmembers⟩ ↦ ?_
      refine bind (closeGroup hmiddle.knotted hmembers) fun hlast hinner ↦ ?_
      exact bind (ih hlast.knotted hinner) fun hfinal hresult ↦ of_pure hfinal.knotted hresult

/-! ## Rules -/

/-- The node that is written has the explanation. -/
theorem explain (hknotted : machine.Knotted program) (henv : machine.store.envs.Contains env)
    (expr : ExprId) (explanation : Explanation) (source : NodeId) (outcome : Outcome) :
    KeepsKnots program (Rules.explain (.evaluation env expr) explanation source outcome) machine
      fun outcome final ↦ final.lookup? (.evaluation env expr) = some outcome.node ∧
        final.explanation? outcome.node = some explanation := by
  have hcoherent := hknotted.store.coherent
  have haddress : (Address.evaluation env expr).Framed machine.store.envs := henv
  have hknowledge : (Knowledge.mk (some explanation) (machine.store.value? source)).Framed
      machine.store.envs := fun value hvalue ↦ hcoherent.framed_value hvalue
  refine inspect (bind (perform hknotted (.write_explains hcoherent haddress hknowledge rfl)
    (.write _ _ machine.store) (Store.envs_write machine.store _ _)) fun hmiddle hwritten ↦ ?_)
  exact of_pure hmiddle.knotted hwritten

section Evaluating

variable (hevaluate : evaluate.KeepsKnots program)
include hevaluate

/-- The outcome of a part under the same demand is passed on. -/
theorem passed (hknotted : machine.Knotted program) (henv : machine.store.envs.Contains env)
    {inner : EnvId} (hinner : machine.store.envs.Contains inner) (expr body : ExprId)
    (explanation : Outcome → Explanation) :
    KeepsKnots program (do
      let outcome ← evaluate inner body demand
      Rules.explain (.evaluation env expr) (explanation outcome) outcome.node outcome) machine
      fun _ _ ↦ True :=
  bind (hevaluate hknotted hinner body demand) fun hmiddle _ ↦
    (explain hmiddle.knotted (hmiddle.contains henv) expr _ _ _).mono fun _ _ ↦ trivial

/-- The node that has been written is matched. -/
theorem written (hknotted : machine.Knotted program) (henv : machine.store.envs.Contains env)
    (expr : ExprId) {knowledge : Knowledge} (hknowledge : knowledge.Framed machine.store.envs)
    (demand : DemandId) :
    KeepsKnots program (do
      let node ← Machine.perform (Store.write (.evaluation env expr) knowledge)
      Matching.node program reach evaluate node demand) machine fun _ _ ↦ True := by
  have haddress : (Address.evaluation env expr).Framed machine.store.envs := henv
  refine bind (perform hknotted (.write hknotted.store.coherent haddress hknowledge)
    (.write _ _ machine.store) (Store.envs_write machine.store _ _)) fun {node _} hmiddle _ ↦ ?_
  exact Matching.keepsKnots_node hevaluate reach hmiddle.knotted node demand

theorem given (hknotted : machine.Knotted program) (henv : machine.store.envs.Contains env)
    (expr : ExprId) {value : Value} (hvalue : value.Framed machine.store.envs) (demand : DemandId) :
    KeepsKnots program (Rules.given program reach evaluate (.evaluation env expr) value demand)
      machine fun _ _ ↦ True := by
  refine written hevaluate hknotted henv expr ?_ demand
  rintro _ ⟨⟩
  exact hvalue

/-- A name is explained by the node to which its binding leads. -/
theorem lookup (hknotted : machine.Knotted program) (henv : machine.store.envs.Contains env)
    (expr : ExprId) (name : Symbol) (demand : DemandId) :
    KeepsKnots program (Rules.lookup program reach evaluate env (.evaluation env expr) name demand)
      machine fun outcome final ↦ final.lookup? (.evaluation env expr) = some outcome.node ∧
        ∃ binding target, final.envs.get? env name = some binding ∧
          Resolves program final binding target ∧
          final.explanation? outcome.node = some (.lookup name target) := by
  refine inspect ?_
  cases hbinding : machine.store.envs.get? env name with
  | none => exact of_throw hknotted _
  | some binding =>
    refine bind (resolve hknotted name (Environments.mem_of_get? hbinding))
      fun {target _} htarget hresolves ↦ ?_
    refine bind (Matching.keepsKnots_node hevaluate reach htarget.knotted target demand)
      fun {matched _} hmatched _ ↦ ?_
    have hadvances := hmatched.trans htarget
    refine (explain hmatched.knotted (hadvances.contains henv) expr (.lookup name target) target
      matched).mono fun {outcome final} hsteps hexplained ↦ ?_
    have hall : machine.store.Steps final := hadvances.steps.trans hsteps
    refine ⟨hexplained.1, binding, target, ?_, hresolves.steps htarget.knotted.store.coherent.toCurrent
      (hmatched.steps.trans hsteps), hexplained.2⟩
    rw [hall.includes.envs.get?_eq henv, hbinding]

theorem applyPrimitive (hknotted : machine.Knotted program)
    (henv : machine.store.envs.Contains env) (expr : ExprId) (function : NodeId)
    (primitive : PrimitiveValue) (argument : ExprId) (demand : DemandId) :
    KeepsKnots program (Rules.applyPrimitive program reach evaluate env (.evaluation env expr)
      function primitive argument demand) machine fun _ _ ↦ True := by
  refine bind (hevaluate hknotted henv argument _) fun {operand _} hoperand _ ↦ ?_
  refine bind (knownValue hoperand.knotted operand.node) fun {right _} hright _ ↦ ?_
  refine bind (compute hright.knotted function operand.node right primitive)
    fun hcomputed hknowledge ↦ ?_
  have henv := (hcomputed.trans (hright.trans hoperand)).contains henv
  exact written hevaluate hcomputed.knotted henv expr hknowledge demand

theorem applyClosure (hknotted : machine.Knotted program)
    (henv : machine.store.envs.Contains env) (expr : ExprId) (function : NodeId) {closure : Closure}
    (hclosure : (Value.closure closure).Framed machine.store.envs) (argument : ExprId)
    (demand : DemandId) :
    KeepsKnots program (Rules.applyClosure program evaluate env (.evaluation env expr) function
      closure argument demand) machine fun _ _ ↦ True := by
  unfold Rules.applyClosure
  split
  case h_1 parameter _ =>
    refine bind (hevaluate hknotted henv argument parameter) fun {matched _} hmatched _ ↦ ?_
    refine bind (bodyOf hmatched.knotted matched parameter) fun hbody _ ↦ ?_
    have hbody := hbody.trans hmatched
    have hclosure := hclosure.grow hbody.steps.includes.envs
    refine bind (scopeMembers hbody.knotted hclosure.2) fun hmembers _ ↦ ?_
    refine bind (concat hmembers.knotted matched.env (hmembers.contains hclosure.1))
      fun hjoined hinner ↦ ?_
    have henv := (hjoined.trans (hmembers.trans hbody)).contains henv
    exact passed hevaluate hjoined.knotted henv hinner expr _ _
  case h_2 => exact of_throw hknotted _

theorem apply (hknotted : machine.Knotted program) (henv : machine.store.envs.Contains env)
    (expr function argument : ExprId) (demand : DemandId) :
    KeepsKnots program
      (Rules.apply program reach evaluate env (.evaluation env expr) function argument demand) machine
      fun _ _ ↦ True := by
  refine bind (hevaluate hknotted henv function .function) fun {applied middle} happlied _ ↦ ?_
  have henv := happlied.contains henv
  refine inspect ?_
  cases hvalue : middle.store.value? applied.node with
  | none => exact of_throw happlied.knotted _
  | some value =>
    cases value with
    | closure closure =>
      exact applyClosure hevaluate happlied.knotted henv expr applied.node
        (happlied.knotted.store.coherent.framed_value hvalue) argument demand
    | primitive primitive =>
      exact applyPrimitive hevaluate happlied.knotted henv expr applied.node primitive argument demand
    | _ => exact of_throw happlied.knotted _

theorem construct (hknotted : machine.Knotted program)
    (henv : machine.store.envs.Contains env) (expr : ExprId) (tag : Symbol) (args : List ExprId)
    (demand : DemandId) :
    KeepsKnots program
      (Rules.construct program reach evaluate env (.evaluation env expr) tag args demand) machine
      fun _ _ ↦ True := by
  unfold Rules.construct
  split
  · exact of_throw hknotted _
  · split
    · refine bind (registerAll hknotted henv args) fun {nodes middle} hargs _ ↦ ?_
      have hvalue : (Value.constructor tag nodes).Framed middle.store.envs := trivial
      exact given hevaluate hargs.knotted (hargs.contains henv) expr hvalue demand
    · exact of_throw hknotted _

/-- The rules for all forms keep machines knotted, and those for names trace them. -/
theorem byForm (hknotted : machine.Knotted program) (henv : machine.store.envs.Contains env)
    (form : Expr) (expr : ExprId) (demand : DemandId) :
    KeepsKnots program (Rules.byForm program reach evaluate form env expr demand) machine
      fun outcome final ↦ ∀ name, form.name? = some name →
        final.lookup? (.evaluation env expr) = some outcome.node ∧
        ∃ binding target, final.envs.get? env name = some binding ∧
          Resolves program final binding target ∧
          final.explanation? outcome.node = some (.lookup name target) := by
  have hgiven : ∀ value : Value, value.Framed machine.store.envs →
      KeepsKnots program (Rules.given program reach evaluate (.evaluation env expr) value demand)
        machine fun _ _ ↦ True :=
    fun value hvalue ↦ given hevaluate hknotted henv expr hvalue demand
  cases form with
  | number value => exact (hgiven (.number value) trivial).mono nofun
  | text value => exact (hgiven (.text value) trivial).mono nofun
  | constructor tag args =>
    exact (construct hevaluate hknotted henv expr tag args demand).mono nofun
  | function parameter =>
    exact (hgiven (.closure ⟨env, expr, none⟩) ⟨henv, nofun⟩).mono nofun
  | var name =>
    refine (lookup hevaluate hknotted henv expr name demand).mono fun _ htraced ↦ ?_
    rintro _ ⟨⟩
    exact htraced
  | op name =>
    refine (lookup hevaluate hknotted henv expr name demand).mono fun _ htraced ↦ ?_
    rintro _ ⟨⟩
    exact htraced
  | app function argument =>
    exact (apply hevaluate hknotted henv expr function argument demand).mono nofun
  | letIn name bound body =>
    refine bind (register hknotted henv bound) fun {node middle} hbound _ ↦ ?_
    have henv := hbound.contains henv
    refine bind (extend hbound.knotted henv name node) fun hextended hinner ↦ ?_
    exact (passed hevaluate hextended.knotted (hextended.contains henv) hinner expr body _).mono nofun
  | letRec group body =>
    have hscope : machine.store.envs.Contains (Scope.mk env group).env := henv
    refine bind (closeMembers hknotted hscope) fun hclosed ⟨_, hmembers⟩ ↦ ?_
    refine bind (closeGroup hclosed.knotted hmembers) fun hextended hinner ↦ ?_
    have henv := (hextended.trans hclosed).contains henv
    exact (passed hevaluate hextended.knotted henv hinner expr body _).mono nofun
  | matching scrutinee cases =>
    refine bind (hevaluate hknotted henv scrutinee cases) fun {matched _} hmatched _ ↦ ?_
    refine bind (bodyOf hmatched.knotted matched cases) fun hbody _ ↦ ?_
    have henv := (hbody.trans hmatched).contains henv
    refine bind (concat hbody.knotted matched.env henv) fun hextended hinner ↦ ?_
    exact (passed hevaluate hextended.knotted (hextended.contains henv) hinner expr _ _).mono nofun
  | defs definitions body =>
    refine bind (define hknotted henv definitions) fun {result _} hdefined hinner ↦ ?_
    exact (passed hevaluate hdefined.knotted (hdefined.contains henv) hinner expr body _).mono nofun

theorem step : Evaluator.KeepsKnots program (Rules.step program reach evaluate) := by
  intro machine env hknotted henv expr demand
  cases hbind : (program.demand demand).isBind with
  | true =>
    obtain ⟨name, next, hdemand⟩ := Demand.eq_bind hbind
    rw [Rules.step_of_bind hdemand]
    refine bind (register hknotted henv expr) fun {node middle} hnode _ ↦ ?_
    refine (Matching.keepsKnots_bind hnode.knotted node name next).mono fun _ _ hnot ↦ ?_
    rw [hbind] at hnot
    cases hnot
  | false =>
    rw [Rules.step_of_not_bind hbind]
    exact (byForm hevaluate hknotted henv (program.expr expr) expr demand).mono
      fun _ htraced _ ↦ htraced

end Evaluating

end Machine.KeepsKnots

/-- Remembering a traced outcome keeps a machine knotted. -/
theorem Machine.Knotted.remember (hknotted : machine.Knotted program) (settings : Settings)
    (htraced : Traced program machine.store env expr demand outcome) :
    (Machine.remember settings ⟨env, expr, demand⟩ outcome machine).Knotted program where
  store := by
    rw [store_remember]
    exact hknotted.store
  revision := by rw [revision_remember, hknotted.revision]
  memo hfound := by
    rw [store_remember]
    obtain ⟨rfl, rfl⟩ | hfound := mem_of_remember hfound
    · exact htraced
    · exact hknotted.memo hfound

theorem Machine.Knotted.remembered (hknotted : machine.Knotted program) {settings : Settings}
    {request : Request} (hremembered : machine.remembered? settings request = some outcome) :
    Traced program machine.store request.env request.expr request.demand outcome := by
  unfold remembered? at hremembered
  split at hremembered
  · exact hknotted.memo hremembered
  · cases hremembered

/-- What is remembered is traced like what would be computed. -/
theorem Machine.KeepsKnots.memoized (settings : Settings) {compute : Evaluating Outcome}
    (hknotted : machine.Knotted program)
    (hcompute : KeepsKnots program compute machine
      fun outcome final ↦ Traced program final env expr demand outcome) :
    KeepsKnots program (Machine.memoized settings ⟨env, expr, demand⟩ compute) machine
      fun outcome final ↦ Traced program final env expr demand outcome := by
  have hsynchronized : machine.synchronize = machine := by
    refine synchronize_of_revision ?_
    rw [hknotted.revision, Store.current, hknotted.store.coherent.revisions]
  cases hremembered : machine.remembered? settings ⟨env, expr, demand⟩ with
  | some outcome =>
    exact of_run (memoized_of_some compute hsynchronized hremembered) (.refl hknotted)
      (hknotted.remembered hremembered)
  | none =>
    unfold KeepsKnots Stops
    rw [memoized_of_none compute hsynchronized hremembered]
    cases hrun : compute machine with
    | error error final =>
      have hadvances := Stops.error hcompute hrun
      exact hadvances
    | ok outcome final =>
      obtain ⟨hadvances, htraced⟩ := Stops.ok hcompute hrun
      refine ⟨⟨hadvances.knotted.remember settings htraced, ?_⟩, ?_⟩
      · rw [store_remember]
        exact hadvances.steps
      · rw [store_remember]
        exact htraced

/-- Evaluation keeps machines knotted, however deep it may be nested. -/
theorem Evaluation.keepsKnots_nested (program : Program) (settings : Settings) (depth : Nat) :
    Evaluator.KeepsKnots program (nested program settings depth) := by
  induction depth with
  | zero =>
    exact fun hknotted _ _ _ ↦ .memoized settings hknotted (.of_throw hknotted _)
  | succ depth ih =>
    exact fun hknotted henv expr demand ↦
      .memoized settings hknotted (KeepsKnots.step ih hknotted henv expr demand)

end Whence
