import Whence.Proofs.Finding.Coherence
import Whence.Proofs.Matching

/-!
# Matches find what they say

An outcome agrees with a node if the demand finds at the node just what the outcome says.  A machine
is coherent if its store is and if each remembered outcome answers its request.  Every computation is
judged by what it ensures from a coherent machine on: wherever it stops, the machine is coherent and
its store refined, and its result is as it should be.  If evaluation answers requests, then matching
a node ends in an outcome that agrees with the node.
-/

namespace Whence

variable {α β : Type} {program : Program} {store final : Store} {machine : Machine}
  {node : NodeId} {env : EnvId} {expr : ExprId} {demand : DemandId} {outcome : Outcome}

/-- What the outcome says, with its environment written out. -/
def Outcome.finding (outcome : Outcome) (store : Store) : Finding :=
  ⟨store.envs.entries outcome.env, outcome.next, outcome.inspected⟩

/-- The demand finds at the node what the outcome says. -/
structure Agrees (program : Program) (store : Store) (node : NodeId) (demand : DemandId)
    (outcome : Outcome) : Prop where
  node_eq : outcome.node = node
  contains : store.envs.Contains outcome.env
  finds : Finds program store node demand (outcome.finding store)

/-- The outcome belongs to the node of the expression and agrees with it. -/
structure Answers (program : Program) (store : Store) (env : EnvId) (expr : ExprId)
    (demand : DemandId) (outcome : Outcome) : Prop where
  lookup : store.lookup? (.evaluation env expr) = some outcome.node
  agrees : Agrees program store outcome.node demand outcome

theorem Outcome.finding_refine (hrefines : final.Refines store)
    (henv : store.envs.Contains outcome.env) : outcome.finding final = outcome.finding store := by
  rw [finding, hrefines.envs.entries_eq henv, finding]

theorem Agrees.refine (hagrees : Agrees program store node demand outcome)
    (hrefines : final.Refines store) : Agrees program final node demand outcome where
  node_eq := hagrees.node_eq
  contains := hrefines.envs.contains hagrees.contains
  finds := by
    rw [Outcome.finding_refine hrefines hagrees.contains]
    exact hagrees.finds.refine hrefines

theorem Answers.refine (hanswers : Answers program store env expr demand outcome)
    (hrefines : final.Refines store) : Answers program final env expr demand outcome :=
  ⟨hrefines.lookup hanswers.lookup, hanswers.agrees.refine hrefines⟩

namespace Machine

structure Coherent (program : Program) (machine : Machine) : Prop where
  store : machine.store.Coherent
  revision : machine.memo.revision = .root
  memo : ∀ {request : Request} {outcome : Outcome}, machine.memo.outcomes[request]? = some outcome →
    Answers program machine.store request.env request.expr request.demand outcome

/-- What holds after a computation, whether it has succeeded or failed. -/
structure Follows (program : Program) (final machine : Machine) : Prop where
  coherent : final.Coherent program
  refines : final.store.Refines machine.store

/-- Wherever the computation stops, the machine is coherent and its store refined, and what it
returns satisfies the condition. -/
def Ensures (program : Program) (computation : Evaluating α) (machine : Machine)
    (done : α → Store → Prop) : Prop :=
  Stops computation machine
    (fun result final ↦ final.Follows program machine ∧ done result final.store)
    fun final ↦ final.Follows program machine

theorem Follows.refl (hcoherent : machine.Coherent program) : machine.Follows program machine :=
  ⟨hcoherent, .refl _⟩

theorem Follows.trans {final middle : Machine} (hsecond : final.Follows program middle)
    (hfirst : middle.Follows program machine) : final.Follows program machine :=
  ⟨hsecond.coherent, hsecond.refines.trans hfirst.refines⟩

/-- What is remembered stays right when the store is refined. -/
theorem Coherent.follows (hcoherent : machine.Coherent program)
    (hfollows : final.Follows machine.store) :
    Follows program { machine with store := final } machine :=
  ⟨⟨hfollows.coherent, hcoherent.revision, fun hfound ↦
    (hcoherent.memo hfound).refine hfollows.refines⟩, hfollows.refines⟩

end Machine

namespace Machine.Ensures

variable {computation : Evaluating α} {next : α → Evaluating β} {between : α → Store → Prop}
  {done : β → Store → Prop}

theorem of_pure {result : β} (hcoherent : machine.Coherent program)
    (hdone : done result machine.store) : Ensures program (pure result) machine done :=
  ⟨.refl hcoherent, hdone⟩

theorem of_throw (hcoherent : machine.Coherent program) (error : Error) :
    Ensures program (throw error) machine done :=
  Follows.refl hcoherent

theorem bind (hfirst : Ensures program computation machine between)
    (hnext : ∀ {result middle}, middle.Follows program machine → between result middle.store →
      Ensures program (next result) middle done) :
    Ensures program (computation >>= next) machine done := by
  refine Stops.bind hfirst (fun {result middle} hmiddle ↦ ?_) id
  exact Stops.mono (hnext hmiddle.1 hmiddle.2) (And.imp_left (·.trans hmiddle.1))
    (·.trans hmiddle.1)

theorem mono {computation : Evaluating β} {done' : β → Store → Prop}
    (hcomputation : Ensures program computation machine done)
    (hdone : ∀ {result final}, final.Refines machine.store → done result final →
      done' result final) : Ensures program computation machine done' :=
  Stops.mono hcomputation (fun hfinal ↦ ⟨hfinal.1, hdone hfinal.1.refines hfinal.2⟩) id

theorem follows (hcomputation : Ensures program computation machine between) :
    (stateAfter computation machine).Follows program machine :=
  Stops.stateAfter hcomputation And.left id

/-- The store is looked at. -/
theorem inspect {read : Store → α} (hnext : Ensures program (next (read machine.store)) machine done) :
    Ensures program (Machine.inspect read >>= next) machine done :=
  hnext

theorem change {operation : Store → β × Store} (hcoherent : machine.Coherent program)
    (hfollows : (operation machine.store).2.Follows machine.store)
    (hdone : done (operation machine.store).1 (operation machine.store).2) :
    Ensures program (Machine.change operation) machine done :=
  ⟨hcoherent.follows hfollows, hdone⟩

theorem perform {operation : Storing β} (hcoherent : machine.Coherent program)
    (hoperation : Store.Ensures operation machine.store done) :
    Ensures program (Machine.perform operation) machine done := by
  obtain ⟨store, memo⟩ := machine
  unfold Ensures Stops Machine.perform
  dsimp only
  cases hrun : operation store with
  | ok result final =>
    have hfinal := Stops.ok hoperation hrun
    exact ⟨hcoherent.follows hfinal.1, hfinal.2⟩
  | error error final =>
    have hfinal := Stops.error hoperation hrun
    exact hcoherent.follows hfinal

theorem register (hcoherent : machine.Coherent program) (henv : machine.store.envs.Contains env)
    (expr : ExprId) :
    Ensures program (Machine.change fun store ↦ store.register (.evaluation env expr)) machine
      fun node final ↦ final.lookup? (.evaluation env expr) = some node :=
  change hcoherent ⟨hcoherent.store.register henv, (Store.register_grows _ _).refines⟩
    (Store.lookup?_register machine.store (.evaluation env expr))

/-- Extending an environment gives one that has been handed out and binds what it should. -/
theorem extendAll (hcoherent : machine.Coherent program) (henv : machine.store.envs.Contains env)
    {bindings : List (Symbol × Binding)}
    (hbindings : ∀ entry ∈ bindings, entry.2.Framed machine.store.envs)
    {operation : Store → EnvId × Store} (hoperation : operation machine.store =
      ((machine.store.envs.extendAll env bindings).1,
        { machine.store with envs := (machine.store.envs.extendAll env bindings).2 })) :
    Ensures program (Machine.change operation) machine fun inner final ↦
      final.envs.Contains inner ∧ final.envs.entries inner =
        bindings.reverse ++ machine.store.envs.entries env := by
  obtain ⟨-, -, hcontains, hentries⟩ :=
    Environments.extendAll_spec bindings hcoherent.store.envs henv
  refine change hcoherent ?_ ?_
  · rw [hoperation]
    exact hcoherent.store.extendAll henv hbindings
  · rw [hoperation]
    exact ⟨hcontains, hentries⟩

theorem extend (hcoherent : machine.Coherent program) (henv : machine.store.envs.Contains env)
    (name : Symbol) {binding : Binding} (hbinding : binding.Framed machine.store.envs) :
    Ensures program (Machine.change fun store ↦ store.extend env name binding) machine
      fun inner final ↦ final.envs.Contains inner ∧ final.envs.entries inner =
        (name, binding) :: machine.store.envs.entries env := by
  have hbindings : ∀ entry ∈ [(name, binding)], entry.2.Framed machine.store.envs := by
    simpa using hbinding
  exact extendAll hcoherent henv hbindings rfl

theorem concat (hcoherent : machine.Coherent program) (inner : EnvId)
    (henv : machine.store.envs.Contains env) :
    Ensures program (Machine.change fun store ↦ store.concat inner env) machine
      fun joined final ↦ final.envs.Contains joined ∧ final.envs.entries joined =
        machine.store.envs.entries inner ++ machine.store.envs.entries env := by
  have hbindings : ∀ entry ∈ (machine.store.envs.entries inner).reverse,
      entry.2.Framed machine.store.envs :=
    fun entry hentry ↦ hcoherent.store.bindings (List.mem_reverse.1 hentry)
  refine (extendAll hcoherent henv hbindings rfl).mono fun _ hjoined ↦ ?_
  rwa [List.reverse_reverse] at hjoined

end Machine.Ensures

open Machine

/-- Wherever evaluation is asked something about an environment at hand, its outcome is an answer. -/
def Evaluator.IsFaithful (program : Program) (evaluate : Evaluator) : Prop :=
  ∀ {machine env}, machine.Coherent program → machine.store.envs.Contains env → ∀ expr demand,
    Ensures program (evaluate env expr demand) machine
      fun outcome final ↦ Answers program final env expr demand outcome

/-- Each match ends in an outcome that agrees with its node. -/
def Matching.IsFaithful (program : Program)
    (matchOne : NodeId → DemandId → Evaluating Outcome) : Prop :=
  ∀ {machine}, machine.Coherent program → ∀ node demand,
    Ensures program (matchOne node demand) machine
      fun outcome final ↦ Agrees program final node demand outcome

namespace Matching

variable {matchOne : NodeId → DemandId → Evaluating Outcome}

theorem ensures_bind (hcoherent : machine.Coherent program) {name : Symbol} {next : Next}
    (hdemand : program.demand demand = .bind name next) (node : NodeId) :
    Ensures program (bind node name next) machine
      fun outcome final ↦ Agrees program final node demand outcome := by
  refine Ensures.bind (Ensures.extend hcoherent hcoherent.store.envs.contains_empty name trivial)
    fun {env middle} hmiddle henv ↦ ?_
  refine Ensures.of_pure hmiddle.coherent ⟨rfl, henv.1, ?_⟩
  rw [Outcome.finding, henv.2, hcoherent.store.envs.entries_empty]
  exact .bind hdemand

theorem ensures_forceAll (heverything : program.demand .everything = .everything .done)
    (hmatch : IsFaithful program matchOne) (hcoherent : machine.Coherent program)
    (parts : List NodeId) :
    Ensures program (forceAll (fun part ↦ matchOne part .everything) parts) machine
      fun _ final ↦ ∀ part ∈ parts, Forced final (fun _ ↦ True) part := by
  induction parts generalizing machine with
  | nil => exact Ensures.of_pure hcoherent nofun
  | cons part parts ih =>
    refine Ensures.bind (hmatch hcoherent part .everything) fun {outcome middle} hmiddle hagrees ↦ ?_
    refine (ih hmiddle.coherent).mono fun hrefines hparts ↦ ?_
    exact List.forall_mem_cons.2 ⟨(hagrees.finds.forced heverything).refine hrefines, hparts⟩

/-- Going on with the arguments adds what is found at them. -/
theorem ensures_arguments (hmatch : IsFaithful program matchOne)
    (hcoherent : machine.Coherent program) (count : Nat) (outcome : Outcome)
    (henv : machine.store.envs.Contains outcome.env) (args : List NodeId) :
    Ensures program (arguments program count matchOne outcome args) machine
      fun result final ↦ result.node = outcome.node ∧ final.envs.Contains result.env ∧
        ∃ found, FindsAll program final outcome.next args found ∧
          result.finding final = ⟨found.bindings ++ machine.store.envs.entries outcome.env,
            found.next, outcome.inspected ++ found.inspected⟩ := by
  induction args generalizing machine outcome with
  | nil =>
    refine Ensures.of_pure hcoherent ⟨rfl, henv, .plain outcome.next, .nil, ?_⟩
    simp [Outcome.finding, Finding.plain]
  | cons arg args ih =>
    unfold arguments
    cases hnext : outcome.next with
    | body _ | done => exact Ensures.of_throw hcoherent _
    | demand demand =>
      refine Ensures.bind (hmatch hcoherent arg demand) fun {matched middle} hmiddle hagrees ↦ ?_
      have houter := hmiddle.refines.envs.contains henv
      refine Ensures.bind (Ensures.concat hmiddle.coherent matched.env houter)
        fun {joined last} hlast hjoined ↦ ?_
      refine (ih hlast.coherent _ hjoined.1).mono fun {result final} hrefines hresult ↦ ?_
      obtain ⟨hnode, hcontains, found, hfound, hfinding⟩ := hresult
      have hfirst := (hagrees.refine hlast.refines).refine hrefines
      refine ⟨hnode, hcontains, .join program arg demand (matched.finding final) found,
        .cons hfirst.finds hfound, ?_⟩
      have hentries : final.envs.entries matched.env = middle.store.envs.entries matched.env := by
        rw [hrefines.envs.entries_eq (hlast.refines.envs.contains hagrees.contains),
          hlast.refines.envs.entries_eq hagrees.contains]
      rw [hfinding, hjoined.2, hmiddle.refines.envs.entries_eq henv]
      simp [Finding.join, Outcome.finding, hentries]

/-- A value is matched as the demand says. -/
theorem ensures_value (heverything : program.demand .everything = .everything .done)
    (hmatch : IsFaithful program matchOne) (hcoherent : machine.Coherent program)
    (hbind : (program.demand demand).isBind = false) {known : Value}
    (hvalue : machine.store.value? node = some known) :
    Ensures program (value program matchOne node demand known) machine
      fun outcome final ↦ Agrees program final node demand outcome := by
  have hempty := hcoherent.store.envs.contains_empty
  obtain ⟨next, hdemand⟩ | ⟨next, haccepts⟩ | ⟨cases, tag, args, next, hdemand, rfl, hcase⟩ |
    hrejects := Demand.view (program.demand demand) known hbind
  · rw [value_of_everything hdemand]
    refine Ensures.bind (ensures_forceAll heverything hmatch hcoherent known.parts)
      fun {_ middle} hmiddle hparts ↦ ?_
    have henvs := hmiddle.coherent.store.envs
    refine Ensures.of_pure hmiddle.coherent ⟨rfl, henvs.contains_empty, ?_⟩
    rw [Outcome.finding, Outcome.plain, henvs.entries_empty]
    obtain ⟨later, hlater, hbelow⟩ := hmiddle.refines.value hvalue
    exact .everything hdemand (.intro trivial hlater (hbelow.parts_eq ▸ hparts))
  · rw [value_of_accepts haccepts]
    refine Ensures.of_pure hcoherent ⟨rfl, hempty, ?_⟩
    rw [Outcome.finding, Outcome.plain, hcoherent.store.envs.entries_empty]
    exact .kind hvalue haccepts
  · rw [value_of_case hdemand hcase]
    refine (ensures_arguments hmatch hcoherent args.length (.plain node next) hempty args).mono
      fun {outcome final} hrefines houtcome ↦ ?_
    obtain ⟨hnode, hcontains, found, hfound, hfinding⟩ := houtcome
    refine ⟨hnode, hcontains, ?_⟩
    obtain ⟨_, hlater, ⟨⟩⟩ := hrefines.value hvalue
    rw [hfinding, Outcome.plain_env, hcoherent.store.envs.entries_empty, List.append_nil]
    exact .constructor hdemand hlater hcase hfound
  · rw [value_of_rejects hrejects]
    exact Ensures.of_throw hcoherent _

/-- A node without a value is evaluated by its address, and the answer belongs to the node itself. -/
theorem ensures_within (heverything : program.demand .everything = .everything .done)
    {evaluate : Evaluator} (hevaluate : evaluate.IsFaithful program) (steps : Nat) :
    IsFaithful program (within program evaluate steps) := by
  induction steps with
  | zero => exact fun hcoherent node demand ↦ Ensures.of_throw hcoherent _
  | succ steps ih =>
    intro machine hcoherent node demand
    cases hbind : (program.demand demand).isBind with
    | true =>
      obtain ⟨name, next, hdemand⟩ := Demand.eq_bind hbind
      rw [within_bind evaluate steps hdemand]
      exact ensures_bind hcoherent hdemand node
    | false =>
      rw [within_succ evaluate steps hbind]
      refine Ensures.inspect ?_
      cases hvalue : machine.store.value? node with
      | some known => exact ensures_value heverything ih hcoherent hbind hvalue
      | none =>
        refine Ensures.inspect ?_
        cases haddress : machine.store.address node with
        | input source => exact Ensures.of_throw hcoherent _
        | evaluation env expr =>
          have hframed := hcoherent.store.framed_address node
          rw [haddress] at hframed
          refine (hevaluate hcoherent hframed expr demand).mono fun hrefines hanswers ↦ ?_
          have hnode : machine.store.lookup? (.evaluation env expr) = some node :=
            hcoherent.store.ids.2 ⟨Store.contains_of_evaluation haddress, haddress⟩
          have hlookup := hanswers.lookup
          rw [hrefines.lookup hnode] at hlookup
          cases hlookup
          exact hanswers.agrees

theorem ensures_node (heverything : program.demand .everything = .everything .done) (reach : Nat)
    {evaluate : Evaluator} (hevaluate : evaluate.IsFaithful program) :
    IsFaithful program (Matching.node program reach evaluate) :=
  fun hcoherent node demand ↦
    Ensures.inspect (ensures_within heverything hevaluate _ hcoherent node demand)

end Matching

end Whence
