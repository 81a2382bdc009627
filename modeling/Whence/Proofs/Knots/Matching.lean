import Whence.Proofs.Knots.Groups
import Whence.Proofs.Matching

/-!
# Machines keep their stores knotted

A machine is knotted if its store is and if for each remembered outcome of a name the node says to
which node the name leads.  Every computation is judged by what it keeps from a knotted machine on:
wherever it stops, it has led there in steps, and the machine is knotted.  Matching makes no recursive
bindings, so it keeps a machine knotted if evaluation does.
-/

namespace Whence

variable {α β : Type} {program : Program} {store final : Store} {machine : Machine}
  {node : NodeId} {env : EnvId} {expr : ExprId} {demand : DemandId} {outcome : Outcome}

/-- The name that the expression looks up. -/
def Expr.name? : Expr → Option Symbol
  | .var name | .op name => some name
  | _ => none

/-- The outcome of a name belongs to its node, which says to which node the name leads. -/
def Traced (program : Program) (store : Store) (env : EnvId) (expr : ExprId) (demand : DemandId)
    (outcome : Outcome) : Prop :=
  (program.demand demand).isBind = false → ∀ name, (program.expr expr).name? = some name →
    store.lookup? (.evaluation env expr) = some outcome.node ∧
    ∃ binding target, store.envs.get? env name = some binding ∧
      Resolves program store binding target ∧
      store.explanation? outcome.node = some (.lookup name target)

theorem Store.Steps.explanation? (hsteps : store.Steps final) (hrevisions : store.revisions = {})
    {explanation : Explanation} (hexplanation : store.explanation? node = some explanation) :
    final.explanation? node = some explanation := by
  obtain ⟨knowledge, hknown, hexplanation⟩ := Option.bind_eq_some_iff.1 hexplanation
  obtain ⟨later, hlater, hbelow⟩ := hsteps.below_knowledge hrevisions hknown
  rw [Store.explanation?, hlater]
  exact Knowledge.explanation_of_below hbelow hexplanation

theorem Traced.steps (htraced : Traced program store env expr demand outcome)
    (hcurrent : store.Current) (hsteps : store.Steps final) :
    Traced program final env expr demand outcome := by
  intro hbind name hname
  obtain ⟨hlookup, binding, target, hbinding, hresolves, hexplanation⟩ := htraced hbind name hname
  have henv := Environments.contains_of_mem (Environments.mem_of_get? hbinding)
  refine ⟨hsteps.includes.lookup hlookup, binding, target, ?_, hresolves.steps hcurrent hsteps,
    hsteps.explanation? hcurrent.revisions hexplanation⟩
  rw [hsteps.includes.envs.get?_eq henv, hbinding]

namespace Machine

structure Knotted (program : Program) (machine : Machine) : Prop where
  store : machine.store.Knotted program
  revision : machine.memo.revision = .root
  memo : ∀ {request : Request} {outcome : Outcome}, machine.memo.outcomes[request]? = some outcome →
    Traced program machine.store request.env request.expr request.demand outcome

/-- What holds after a computation, whether it has succeeded or failed. -/
structure Advances (program : Program) (final machine : Machine) : Prop where
  knotted : final.Knotted program
  steps : machine.store.Steps final.store

/-- Wherever the computation stops, the machine is knotted, and what it returns satisfies the
condition. -/
def KeepsKnots (program : Program) (computation : Evaluating α) (machine : Machine)
    (done : α → Store → Prop) : Prop :=
  Stops computation machine
    (fun result final ↦ final.Advances program machine ∧ done result final.store)
    fun final ↦ final.Advances program machine

theorem Advances.refl (hknotted : machine.Knotted program) : machine.Advances program machine :=
  ⟨hknotted, .refl⟩

theorem Advances.trans {final middle : Machine} (hsecond : final.Advances program middle)
    (hfirst : middle.Advances program machine) : final.Advances program machine :=
  ⟨hsecond.knotted, hfirst.steps.trans hsecond.steps⟩

theorem Advances.contains {final : Machine} (hadvances : final.Advances program machine)
    (henv : machine.store.envs.Contains env) : final.store.envs.Contains env :=
  hadvances.steps.includes.envs.contains henv

/-- What is remembered stays right when the store changes in steps. -/
theorem Knotted.advances (hknotted : machine.Knotted program) (hstore : final.Knotted program)
    (hsteps : machine.store.Steps final) :
    Advances program { machine with store := final } machine :=
  ⟨⟨hstore, hknotted.revision, fun hfound ↦
    (hknotted.memo hfound).steps hknotted.store.coherent.toCurrent hsteps⟩, hsteps⟩

end Machine

namespace Machine.KeepsKnots

variable {computation : Evaluating α} {next : α → Evaluating β} {between : α → Store → Prop}
  {done : β → Store → Prop}

theorem of_pure {result : β} (hknotted : machine.Knotted program)
    (hdone : done result machine.store) : KeepsKnots program (pure result) machine done :=
  ⟨.refl hknotted, hdone⟩

theorem of_throw (hknotted : machine.Knotted program) (error : Error) :
    KeepsKnots program (throw error) machine done :=
  Advances.refl hknotted

theorem of_run {computation : Evaluating β} {result : β} {final : Machine}
    (hrun : computation machine = .ok result final) (hadvances : final.Advances program machine)
    (hdone : done result final.store) : KeepsKnots program computation machine done := by
  unfold KeepsKnots Stops
  rw [hrun]
  exact ⟨hadvances, hdone⟩

theorem bind (hfirst : KeepsKnots program computation machine between)
    (hnext : ∀ {result middle}, middle.Advances program machine → between result middle.store →
      KeepsKnots program (next result) middle done) :
    KeepsKnots program (computation >>= next) machine done := by
  refine Stops.bind hfirst (fun {result middle} hmiddle ↦ ?_) id
  exact Stops.mono (hnext hmiddle.1 hmiddle.2) (And.imp_left (·.trans hmiddle.1))
    (·.trans hmiddle.1)

theorem mono {computation : Evaluating β} {done' : β → Store → Prop}
    (hcomputation : KeepsKnots program computation machine done)
    (hdone : ∀ {result final}, machine.store.Steps final → done result final →
      done' result final) : KeepsKnots program computation machine done' :=
  Stops.mono hcomputation (fun hfinal ↦ ⟨hfinal.1, hdone hfinal.1.steps hfinal.2⟩) id

theorem advances (hcomputation : KeepsKnots program computation machine between) :
    (stateAfter computation machine).Advances program machine :=
  Stops.stateAfter hcomputation And.left id

/-- The store is looked at. -/
theorem inspect {read : Store → α}
    (hnext : KeepsKnots program (next (read machine.store)) machine done) :
    KeepsKnots program (Machine.inspect read >>= next) machine done :=
  hnext

theorem register (hknotted : machine.Knotted program) (henv : machine.store.envs.Contains env)
    (expr : ExprId) :
    KeepsKnots program (Machine.change fun store ↦ store.register (.evaluation env expr)) machine
      fun _ _ ↦ True := by
  have haddress : (Address.evaluation env expr).Framed machine.store.envs := henv
  have hsteps : machine.store.Steps (machine.store.register (.evaluation env expr)).2 :=
    .single (.register machine.store _)
  have hstore := hknotted.store.of_envs (hknotted.store.coherent.register haddress) hsteps
    (Store.envs_register machine.store _)
  exact ⟨hknotted.advances hstore hsteps, trivial⟩

/-- An operation that may fail and leaves the environments as they are. -/
theorem perform {operation : Storing β} (hknotted : machine.Knotted program)
    (hoperation : Store.Ensures operation machine.store done)
    (hsteps : machine.store.Steps (stateAfter operation machine.store))
    (henvs : (stateAfter operation machine.store).envs = machine.store.envs) :
    KeepsKnots program (Machine.perform operation) machine done := by
  have hstore := hknotted.store.of_envs hoperation.follows.coherent hsteps henvs
  rw [stateAfter] at hsteps hstore
  obtain ⟨store, memo⟩ := machine
  unfold KeepsKnots Stops Machine.perform
  dsimp only
  cases hrun : operation store with
  | ok result final =>
    rw [hrun] at hsteps hstore
    exact ⟨hknotted.advances hstore hsteps, (Stops.ok hoperation hrun).2⟩
  | error error final =>
    rw [hrun] at hsteps hstore
    exact hknotted.advances hstore hsteps

theorem primitive (hknotted : machine.Knotted program) (primitive : Primitive) :
    KeepsKnots program (Machine.perform (Store.primitive primitive)) machine fun _ _ ↦ True :=
  perform hknotted (.primitive hknotted.store.coherent primitive)
    (.primitive primitive machine.store) (Store.envs_primitive machine.store primitive)

/-- Bindings to nodes, and bindings that are there already, make no new knots. -/
theorem extendAll (hknotted : machine.Knotted program) (henv : machine.store.envs.Contains env)
    {bindings : List (Symbol × Binding)}
    (hbindings : ∀ entry ∈ bindings, (∃ node, entry.2 = .node node) ∨
      ∃ env, entry ∈ machine.store.envs.entries env)
    {operation : Store → EnvId × Store} (hoperation : operation machine.store =
      ((machine.store.envs.extendAll env bindings).1,
        { machine.store with envs := (machine.store.envs.extendAll env bindings).2 })) :
    KeepsKnots program (Machine.change operation) machine
      fun inner final ↦ final.envs.Contains inner := by
  have hframed : ∀ entry ∈ bindings, entry.2.Framed machine.store.envs := by
    intro entry hentry
    obtain ⟨node, hnode⟩ | ⟨env, hold⟩ := hbindings entry hentry
    · rw [hnode]
      trivial
    · exact hknotted.store.coherent.bindings hold
  obtain ⟨-, -, hcontains, -⟩ :=
    Environments.extendAll_spec bindings hknotted.store.coherent.envs henv
  have hsteps := Store.Steps.extendAll machine.store env bindings
  have hstore := hknotted.store.of_extendAll henv bindings
    (hknotted.store.coherent.extendAll henv hframed).coherent hsteps rfl fun hentry ↦ by
      obtain ⟨node, hnode⟩ | ⟨env, hold⟩ := hbindings _ hentry
      · cases hnode
      · obtain ⟨closed, members, hmembers⟩ := hknotted.store.knots hold
        exact ⟨closed, members, hmembers.steps hknotted.store.coherent.toCurrent hsteps⟩
  refine of_run (change_eq operation machine) ?_ ?_
  · rw [hoperation]
    exact hknotted.advances hstore hsteps
  · rw [hoperation]
    exact hcontains

theorem extend (hknotted : machine.Knotted program) (henv : machine.store.envs.Contains env)
    (name : Symbol) (node : NodeId) :
    KeepsKnots program (Machine.change fun store ↦ store.extend env name (.node node)) machine
      fun inner final ↦ final.envs.Contains inner := by
  have hbindings : ∀ entry ∈ [(name, Binding.node node)], (∃ node, entry.2 = .node node) ∨
      ∃ env, entry ∈ machine.store.envs.entries env := fun entry hentry ↦
    .inl ⟨node, by rw [List.mem_singleton.1 hentry]⟩
  exact extendAll hknotted henv hbindings rfl

theorem concat (hknotted : machine.Knotted program) (inner : EnvId)
    (henv : machine.store.envs.Contains env) :
    KeepsKnots program (Machine.change fun store ↦ store.concat inner env) machine
      fun joined final ↦ final.envs.Contains joined := by
  have hbindings : ∀ entry ∈ (machine.store.envs.entries inner).reverse,
      (∃ node, entry.2 = .node node) ∨ ∃ env, entry ∈ machine.store.envs.entries env :=
    fun entry hentry ↦ .inr ⟨inner, List.mem_reverse.1 hentry⟩
  exact extendAll hknotted henv hbindings rfl

end Machine.KeepsKnots

open Machine

/-- Evaluation in an environment at hand keeps machines knotted, and its outcomes are traced. -/
def Evaluator.KeepsKnots (program : Program) (evaluate : Evaluator) : Prop :=
  ∀ {machine env}, machine.Knotted program → machine.store.envs.Contains env → ∀ expr demand,
    Machine.KeepsKnots program (evaluate env expr demand) machine
      fun outcome final ↦ Traced program final env expr demand outcome

/-- Each match keeps machines knotted. -/
def Matching.KeepsKnots (program : Program)
    (matchOne : NodeId → DemandId → Evaluating Outcome) : Prop :=
  ∀ {machine}, machine.Knotted program → ∀ node demand,
    Machine.KeepsKnots program (matchOne node demand) machine fun _ _ ↦ True

namespace Matching

variable {matchOne : NodeId → DemandId → Evaluating Outcome}

theorem keepsKnots_bind (hknotted : machine.Knotted program) (node : NodeId) (name : Symbol)
    (next : Next) :
    Machine.KeepsKnots program (bind node name next) machine fun _ _ ↦ True :=
  .bind (.extend hknotted hknotted.store.coherent.envs.contains_empty name node) fun hmiddle _ ↦
    .of_pure hmiddle.knotted trivial

theorem keepsKnots_forceAll {force : NodeId → Evaluating Outcome}
    (hforce : ∀ {machine}, machine.Knotted program → ∀ node,
      Machine.KeepsKnots program (force node) machine fun _ _ ↦ True)
    (hknotted : machine.Knotted program) (parts : List NodeId) :
    Machine.KeepsKnots program (forceAll force parts) machine fun _ _ ↦ True := by
  induction parts generalizing machine with
  | nil => exact .of_pure hknotted trivial
  | cons part parts ih =>
    exact .bind (hforce hknotted part) fun hmiddle _ ↦ ih hmiddle.knotted

theorem keepsKnots_arguments (hmatch : KeepsKnots program matchOne)
    (hknotted : machine.Knotted program) (count : Nat) (outcome : Outcome)
    (henv : machine.store.envs.Contains outcome.env) (args : List NodeId) :
    Machine.KeepsKnots program (arguments program count matchOne outcome args) machine
      fun _ _ ↦ True := by
  induction args generalizing machine outcome with
  | nil => exact .of_pure hknotted trivial
  | cons arg args ih =>
    unfold arguments
    cases outcome.next with
    | body _ | done => exact .of_throw hknotted _
    | demand demand =>
      refine .bind (hmatch hknotted arg demand) fun {matched middle} hmiddle _ ↦ ?_
      exact .bind (.concat hmiddle.knotted matched.env (hmiddle.contains henv))
        fun hlast hjoined ↦ ih hlast.knotted _ hjoined

theorem keepsKnots_value (hmatch : KeepsKnots program matchOne)
    (hknotted : machine.Knotted program) (node : NodeId) (demand : DemandId) (known : Value) :
    Machine.KeepsKnots program (value program matchOne node demand known) machine
      fun _ _ ↦ True := by
  unfold value
  split
  case h_1 tag args _ =>
    exact .bind (keepsKnots_forceAll (fun hmiddle part ↦ hmatch hmiddle part .everything) hknotted
      args) fun hmiddle _ ↦ .of_pure hmiddle.knotted trivial
  case h_7 tag args _ =>
    split
    · exact keepsKnots_arguments hmatch hknotted _ _
        hknotted.store.coherent.envs.contains_empty args
    · exact .of_throw hknotted _
  case h_8 => exact .of_throw hknotted _
  all_goals exact .of_pure hknotted trivial

/-- A node without a value is evaluated by its address, and the environment there is at hand. -/
theorem keepsKnots_within {evaluate : Evaluator} (hevaluate : evaluate.KeepsKnots program)
    (steps : Nat) : KeepsKnots program (within program evaluate steps) := by
  induction steps with
  | zero => exact fun hknotted _ _ ↦ .of_throw hknotted _
  | succ steps ih =>
    intro machine hknotted node demand
    cases hbind : (program.demand demand).isBind with
    | true =>
      obtain ⟨name, next, hdemand⟩ := Demand.eq_bind hbind
      rw [within_bind evaluate steps hdemand]
      exact keepsKnots_bind hknotted node name next
    | false =>
      rw [within_succ evaluate steps hbind]
      refine .inspect ?_
      cases machine.store.value? node with
      | some known => exact keepsKnots_value ih hknotted node demand known
      | none =>
        refine .inspect ?_
        cases haddress : machine.store.address node with
        | input source => exact .of_throw hknotted _
        | evaluation env expr =>
          have hframed := hknotted.store.coherent.framed_address node
          rw [haddress] at hframed
          exact (hevaluate hknotted hframed expr demand).mono fun _ _ ↦ trivial

theorem keepsKnots_node {evaluate : Evaluator} (hevaluate : evaluate.KeepsKnots program)
    (reach : Nat) : KeepsKnots program (Matching.node program reach evaluate) :=
  fun hknotted node demand ↦ .inspect (keepsKnots_within hevaluate _ hknotted node demand)

end Matching

end Whence
