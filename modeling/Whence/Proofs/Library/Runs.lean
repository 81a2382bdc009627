import Whence.Proofs.Clauses.Correctness
import Whence.Proofs.Inputs

/-!
# What the library offers

Evaluations register and write expressions only, so they leave the nodes of the library alone.
Whoever asks for a primitive gets the same node at any time, and finds the primitive there if and
only if the current revision stands on the one that asked first.
-/

namespace Whence

variable {program : Program} {primitive : Primitive}

/-- Wherever the computation stops, it has kept the library. -/
def Spares {α : Type} (computation _ : Evaluating α) (holds : α → Prop) : Prop :=
  ∀ machine : Machine, machine.store.Stocked →
    Stops computation machine (fun result final ↦ holds result ∧ machine.store.Keeps final.store)
      fun final ↦ machine.store.Keeps final.store

namespace Spares

variable {α β : Type}

theorem of_frame {computation : Evaluating α} {holds : α → Prop}
    (hrun : ∀ machine : Machine, ∃ result envs memo, holds result ∧
      computation machine = .ok result ⟨{ machine.store with envs }, memo⟩) :
    Spares computation computation holds := by
  intro machine hstocked
  obtain ⟨result, envs, memo, hholds, hrun⟩ := hrun machine
  rw [Stops, hrun]
  exact ⟨hholds, hstocked.keeps_frame envs machine.store.revisions⟩

theorem bind {computation computation' : Evaluating α} {next next' : α → Evaluating β}
    {between : α → Prop} {holds : β → Prop} (hfirst : Spares computation computation' between)
    (hnext : ∀ result, between result → Spares (next result) (next' result) holds) :
    Spares (computation >>= next) (computation' >>= next') holds := by
  intro machine hstocked
  refine (hfirst machine hstocked).bind (fun ⟨hbetween, hkeeps⟩ ↦ ?_) id
  exact (hnext _ hbetween _ hkeeps.stocked).mono
    (fun ⟨hholds, hkeeps'⟩ ↦ ⟨hholds, hkeeps.trans hkeeps'⟩) hkeeps.trans

theorem inspect (read : Store → α) :
    Spares (Machine.inspect read) (Machine.inspect read) fun _ ↦ True :=
  of_frame fun machine ↦ ⟨_, machine.store.envs, machine.memo, trivial, rfl⟩

theorem perform {operation : Storing α}
    (hoperation : ∀ store : Store, store.Stocked → store.Keeps (stateAfter operation store)) :
    Spares (Machine.perform operation) (Machine.perform operation) fun _ ↦ True := by
  intro machine hstocked
  have hkeeps := hoperation machine.store hstocked
  rw [stateAfter] at hkeeps
  rw [Stops, Machine.perform]
  cases hrun : operation machine.store with
  | ok result final =>
    rw [hrun] at hkeeps
    exact ⟨trivial, hkeeps⟩
  | error error final =>
    rw [hrun] at hkeeps
    exact hkeeps

theorem parametric : Parametric Spares where
  of_pure hholds _ hstocked := ⟨hholds, .refl hstocked⟩
  of_throw _ _ hstocked := .refl hstocked
  bind := bind
  value _ := inspect _
  address _ := inspect _
  binding _ _ := inspect _
  register env expr _ hstocked := ⟨trivial, hstocked.keeps_register env expr⟩
  extend _ _ _ := of_frame fun machine ↦ ⟨_, _, machine.memo, trivial, rfl⟩
  concat _ _ := of_frame fun machine ↦ ⟨_, _, machine.memo, trivial, rfl⟩
  extendAll _ _ := of_frame fun machine ↦ ⟨_, _, machine.memo, trivial, rfl⟩
  write env expr knowledge := perform fun _ hstocked ↦
    hstocked.keeps_write_evaluation env expr knowledge
  primitive primitive := perform fun _ hstocked ↦ by
    obtain ⟨node, home, final, hasked⟩ := hstocked.primitive_spec primitive
    rw [stateAfter, hasked.run]
    exact hasked.keeps

theorem modify {change : Machine → Machine}
    (hstore : ∀ machine, (change machine).store = machine.store) :
    Spares (modify change : Evaluating PUnit) (modify change) fun _ ↦ True := by
  refine of_frame fun machine ↦ ⟨⟨⟩, machine.store.envs, (change machine).memo, trivial, ?_⟩
  rw [← hstore machine]
  rfl

/-- Forgetting and remembering outcomes does not touch the store. -/
theorem memoized {settings : Settings} {request : Request} {compute compute' : Evaluating Outcome}
    (hcompute : Spares compute compute' fun _ ↦ True) :
    Spares (Machine.memoized settings request compute) (Machine.memoized settings request compute')
      fun _ ↦ True := by
  have hget : Spares (get : Evaluating Machine) get fun _ ↦ True :=
    of_frame fun machine ↦ ⟨machine, machine.store.envs, machine.memo, trivial, rfl⟩
  refine bind (modify Machine.store_synchronize) fun _ _ ↦ bind hget fun machine _ ↦ ?_
  split
  · exact parametric.of_pure trivial
  · exact bind hcompute fun outcome _ ↦ bind (modify (Machine.store_remember _ _ outcome)) fun _ _ ↦
      parametric.of_pure trivial

theorem nested (program : Program) (settings : Settings) (depth : Nat) (env : EnvId) (expr : ExprId)
    (demand : DemandId) :
    Spares (Evaluation.nested program settings depth env expr demand)
      (Evaluation.nested program settings depth env expr demand) fun _ ↦ True :=
  parametric.nested (.trivial program) rfl memoized
    (parametric.matchNode (.trivial program) (inspect _) (fun _ _ hstocked ↦ .refl hstocked) · _)
    depth env expr demand trivial

end Spares

theorem Primitive.ofName?_name (primitive : Primitive) :
    ofName? primitive.name = some primitive := by
  cases primitive with
  | unary op => cases op <;> rfl
  | binary op => cases op <;> rfl

/-- Different primitives are bound under different symbols. -/
theorem Program.Built.primitive_eq (hbuilt : program.Built) {primitive other : Primitive}
    {name : Symbol} (hname : program.symbol? primitive.name = some name)
    (hother : program.symbol? other.name = some name) : other = primitive := by
  have hnames := hbuilt.interned.symbols.injective hname hother
  rw [← Option.some_inj, ← other.ofName?_name, ← hnames, primitive.ofName?_name]

namespace Evaluation

open Store

/-- What binding primitives under their names leaves behind. -/
structure Bound (program : Program) (machine : Machine) (env : EnvId) (primitives : List Primitive)
    (inner : EnvId) (final : Machine) : Prop where
  keeps : machine.store.Keeps final.store
  canonical : final.store.envs.Canonical
  names : ∀ primitive ∈ primitives, ∃ name node, program.symbol? primitive.name = some name ∧
    final.store.envs.get? inner name = some (.node node) ∧
    final.store.library.lookup primitive = some node
  others : ∀ {name}, (∀ primitive ∈ primitives, program.symbol? primitive.name ≠ some name) →
    final.store.envs.get? inner name = machine.store.envs.get? env name
  first : ∀ {primitive node}, machine.store.library.lookup primitive = none →
    final.store.library.lookup primitive = some node →
      (final.store.node node).history = primitive.history machine.store.current

theorem bindPrimitives_bound (hbuilt : program.Built) (primitives : List Primitive)
    (machine : Machine) (hstocked : machine.store.Stocked)
    (hcanonical : machine.store.envs.Canonical) {env : EnvId}
    (henv : machine.store.envs.Contains env) :
    ∃ inner final, bindPrimitives program env primitives machine = .ok inner final ∧
      Bound program machine env primitives inner final := by
  induction primitives generalizing machine env with
  | nil =>
    refine ⟨env, machine, rfl, .refl hstocked, hcanonical,
      fun _ hmem ↦ absurd hmem List.not_mem_nil, fun _ ↦ rfl, fun hnone hsome ↦ ?_⟩
    rw [hnone] at hsome
    cases hsome
  | cons primitive rest ih =>
    obtain ⟨name, hname⟩ := Option.isSome_iff_exists.1
      (hbuilt.primed.names primitive.name_mem_initialNames)
    obtain ⟨node, home, store, hasked⟩ := hstocked.primitive_spec primitive
    have hcanonical' : store.envs.Canonical := hasked.envs ▸ hcanonical
    have henv' : store.envs.Contains env := hasked.envs ▸ henv
    have hextend := hasked.keeps.stocked.keeps_frame
      (store.envs.extend env name (.node node)).2 store.revisions
    obtain ⟨inner, final, hrest, hbound⟩ :=
      ih { machine with store := (store.extend env name (.node node)).2 } hextend.stocked
        (Environments.extend_canonical hcanonical' henv' name (.node node))
        (Environments.contains_extend hcanonical' env name (.node node))
    have hkeeps := hextend.trans hbound.keeps
    refine ⟨inner, final, ?_, hasked.keeps.trans hkeeps, hbound.canonical, ?_, ?_, ?_⟩
    · rw [bindPrimitives, hname]
      simp only [bind, EStateM.bind, Machine.perform, hasked.run, Machine.change]
      exact hrest
    · refine List.forall_mem_cons.2 ⟨?_, hbound.names⟩
      by_cases hagain : primitive ∈ rest
      · exact hbound.names primitive hagain
      -- No other primitive hides this one.
      · refine ⟨name, node, hname, ?_, hkeeps.lookup hasked.lookup⟩
        rw [hbound.others fun other hother hname' ↦ ?_]
        · exact Environments.get?_extend hcanonical' env name (.node node)
        · cases hbuilt.primitive_eq hname hname'
          exact hagain hother
    · intro other hothers
      obtain ⟨hne, hothers⟩ := List.forall_mem_cons.1 hothers
      rw [hname] at hne
      have henvs : store.envs.get? env other = machine.store.envs.get? env other := by
        rw [hasked.envs]
      rw [hbound.others hothers, ← henvs]
      exact Environments.get?_extend_of_ne hcanonical' env (.node node) fun hsame ↦
        hne (congrArg some hsame)
    · intro other found hnone hfound
      by_cases hother : other = primitive
      · subst hother
        cases (hkeeps.lookup hasked.lookup).symm.trans hfound
        rw [hkeeps.history (Environments.mem_of_lookup hasked.lookup), hasked.history,
          hasked.first hnone]
      · rw [hbound.first ((hasked.others hother).trans hnone) hfound]
        exact congrArg (fun revisions ↦ other.history revisions.current) hasked.revisions

end Evaluation

/-! ## Runs that spare the library -/

/-- Addresses given from outside are those of expressions, and no node of the library is updated.
All other operations are free. -/
def Operation.SparesLibrary (store : Store) : Operation → Prop
  | .register address | .write address _ => ∃ env expr, address = .evaluation env expr
  | .update node _ => store.Contains node ∧ store.isLibrary node = false
  | _ => True

namespace Store

open Relation

variable {store final later : Store} {node : NodeId} {home : Revision}

/-- A run of operations that spare the library, from one store to another. -/
abbrev SparingRun : Store → Store → Prop :=
  ReflTransGen fun store final ↦
    ∃ operation : Operation, operation.SparesLibrary store ∧ operation.run store = final

theorem Stocked.keeps_run (hstocked : store.Stocked) {operation : Operation}
    (hspares : operation.SparesLibrary store) : store.Keeps (operation.run store) := by
  cases operation with
  | register address =>
    obtain ⟨env, expr, rfl⟩ := hspares
    exact hstocked.keeps_register env expr
  | write address knowledge =>
    obtain ⟨env, expr, rfl⟩ := hspares
    exact hstocked.keeps_write_evaluation env expr knowledge
  | input value => exact hstocked.keeps_input value
  | update node value => exact hstocked.keeps_update hspares.1 hspares.2 value
  | primitive primitive =>
    obtain ⟨node, home, final, hasked⟩ := hstocked.primitive_spec primitive
    rw [Operation.run, stateAfter, hasked.run]
    exact hasked.keeps
  | extend env name binding => exact hstocked.keeps_frame _ store.revisions
  | spawn => exact hstocked.keeps_frame store.envs _
  | checkout revision =>
    rw [Operation.run, stateAfter, checkout_eq]
    cases store.revisions.checkout? revision with
    | some revisions => exact hstocked.keeps_frame store.envs revisions
    | none => exact .refl hstocked
  | openLibrary program =>
    exact (Spares.parametric.bindPrimitives .empty Primitive.all { store } hstocked).stateAfter
      And.right id
  | evaluate program settings memo env expr demand =>
    exact (Spares.nested program settings settings.maxDepth env expr demand ⟨store, memo⟩
      hstocked).stateAfter And.right id

theorem SparingRun.keeps (hrun : SparingRun store final) (hstocked : store.Stocked) :
    store.Keeps final := by
  induction hrun with
  | refl => exact .refl hstocked
  | tail _ hstep ih =>
    obtain ⟨operation, hspares, rfl⟩ := hstep
    exact ih.trans (ih.stocked.keeps_run hspares)

/-- Whoever asks for the primitive gets the node, and finds the primitive there exactly in the
revisions that stand on the given one. -/
def Offers (store : Store) (primitive : Primitive) (node : NodeId) (home : Revision) : Prop :=
  Store.primitive primitive store = .ok node store ∧ ∀ revision,
    store.valueAt? node revision =
      if store.revisions.precedes home revision then some (.primitive primitive.value) else none

theorem offers_of_history (hlookup : store.library.lookup primitive = some node)
    (hhistory : (store.node node).history = primitive.history home) :
    store.Offers primitive node home := by
  refine ⟨primitive_of_some hlookup, fun revision ↦ ?_⟩
  rw [valueAt?, knowledgeAt?, hhistory, Primitive.visible?_history, Revisions.precedes]
  split <;> rfl

/-- What was offered once is offered ever after. -/
theorem Keeps.offers (hkeeps : store.Keeps final)
    (hlookup : store.library.lookup primitive = some node)
    (hhistory : (store.node node).history = primitive.history home) :
    final.Offers primitive node home := by
  refine offers_of_history (hkeeps.lookup hlookup) ?_
  rw [hkeeps.history (Environments.mem_of_lookup hlookup), hhistory]

/-- On every run that spares the library, asking for a primitive succeeds, with the same node at
any time.  The node has a home, which is the revision that asked first, and its value is the
primitive in the revisions that stand on the home, and nothing in all others.  Likewise the library
can be opened at any time, and then each primitive is bound to its node under its name. -/
theorem library_offers (hrun : SparingRun .empty store) :
    (∀ primitive, ∃ node home final, Store.primitive primitive store = .ok node final ∧
      (store.library.lookup primitive = none → home = store.current) ∧
      ∀ later, SparingRun final later → later.Offers primitive node home) ∧
    ∀ program : Program, program.Built → store.envs.Canonical →
      ∃ env final, Evaluation.openLibrary program { store } = .ok env final ∧
        ∀ primitive, ∃ name node home, program.symbol? primitive.name = some name ∧
          final.store.envs.get? env name = some (.node node) ∧
          (store.library.lookup primitive = none → home = store.current) ∧
          ∀ later, SparingRun final.store later → later.Offers primitive node home := by
  have hstocked := (hrun.keeps .empty).stocked
  refine ⟨fun primitive ↦ ?_, fun program hbuilt hcanonical ↦ ?_⟩
  · obtain ⟨node, home, final, hasked⟩ := hstocked.primitive_spec primitive
    exact ⟨node, home, final, hasked.run, hasked.first, fun later hlater ↦
      (hlater.keeps hasked.keeps.stocked).offers hasked.lookup hasked.history⟩
  · obtain ⟨env, final, hopen, hbound⟩ := Evaluation.bindPrimitives_bound hbuilt Primitive.all
      { store } hstocked hcanonical hcanonical.contains_empty
    refine ⟨env, final, hopen, fun primitive ↦ ?_⟩
    obtain ⟨name, node, hname, hget, hlookup⟩ := hbound.names primitive primitive.mem_all
    obtain ⟨-, -, home, hhistory⟩ :=
      hbound.keeps.stocked.library (Environments.mem_of_lookup hlookup)
    refine ⟨name, node, home, hname, hget, fun hnone ↦ ?_, fun later hlater ↦
      (hlater.keeps hbound.keeps.stocked).offers hlookup hhistory⟩
    exact primitive.history_injective (hhistory.symm.trans (hbound.first hnone hlookup))

/-- The addition that was first asked for in a revision opened on the root. -/
theorem library_offers_spawn :
    SparingRun .empty (Operation.run .empty .spawn) ∧
      ∃ node final, Store.primitive (.binary .add) (Operation.run .empty .spawn) = .ok node final ∧
        ∀ later, SparingRun final later → later.Offers (.binary .add) node ⟨1⟩ := by
  have hrun : SparingRun .empty (Operation.run .empty .spawn) := .single ⟨.spawn, trivial, rfl⟩
  obtain ⟨node, home, final, hprimitive, hhome, hoffers⟩ :=
    (library_offers hrun).1 (.binary .add)
  obtain rfl : home = ⟨1⟩ := hhome rfl
  exact ⟨hrun, node, final, hprimitive, hoffers⟩

/-- In the root the addition of that revision is asked for with success and has no value. -/
theorem library_not_offered : ∃ store node, SparingRun .empty store ∧
    Store.primitive (.binary .add) store = .ok node store ∧ store.value? node = none := by
  have hspawn : SparingRun .empty (Operation.run .empty .spawn) := .single ⟨.spawn, trivial, rfl⟩
  obtain ⟨node, home, final, hasked⟩ :=
    (hspawn.keeps .empty).stocked.primitive_spec (.binary .add)
  obtain rfl : home = ⟨1⟩ := hasked.first rfl
  have hfinal :
      Operation.run (Operation.run .empty .spawn) (.primitive (.binary .add)) = final := by
    rw [Operation.run, stateAfter, hasked.run]
  have hspares : Operation.SparesLibrary final (.checkout .root) := trivial
  have hrun : SparingRun .empty (Operation.run final (.checkout .root)) :=
    (hspawn.tail ⟨.primitive (.binary .add), trivial, hfinal⟩).tail ⟨_, hspares, rfl⟩
  have hrevisions : (Operation.run final (.checkout .root)).revisions =
      { (Operation.run .empty .spawn).revisions with current := .root, current_lt := by decide } := by
    simp only [Operation.run, stateAfter, checkout_eq, hasked.revisions]
    rfl
  obtain ⟨hprimitive, hvalue⟩ :=
    (hasked.keeps.stocked.keeps_run hspares).offers hasked.lookup hasked.history
  refine ⟨_, node, hrun, hprimitive, ?_⟩
  rw [value?, hvalue, current, hrevisions]
  rfl

end Store

end Whence
