import Mathlib.Logic.Relation
import Whence.Proofs.Parametricity
import Whence.Proofs.RootStore
import Whence.Proofs.Stopping

/-!
# Evaluation changes a store step by step

Whatever a program does and wherever its evaluation stops, the store is changed in steps of four
kinds only: an address is registered, a write of the current revision is accepted, an environment is
extended, a node is noted as a primitive.  No step opens or changes a revision.  The same way leads
to every property that computations inherit from their parts.
-/

namespace Whence

open Relation

variable {α β : Type}

namespace Store

inductive Step : Store → Store → Prop
  | register (store : Store) (address : Address) : Step store (store.register address).2
  | commit {store : Store} {node : NodeId} {knowledge : Knowledge} {history : History} :
    store.revised node knowledge = .ok history → Step store (store.setHistory node history)
  | extend (store : Store) (env : EnvId) (name : Symbol) (binding : Binding) :
    Step store (store.extend env name binding).2
  | note (store : Store) (primitive : Primitive) (node : NodeId) :
    Step store { store with library := store.library ++ [(primitive, node)] }

abbrev Steps : Store → Store → Prop := ReflTransGen Step

namespace Steps

theorem extendAll (store : Store) (env : EnvId) (bindings : List (Symbol × Binding)) :
    store.Steps { store with envs := (store.envs.extendAll env bindings).2 } := by
  induction bindings generalizing store env with
  | nil => exact .refl
  | cons first rest ih =>
    obtain ⟨name, binding⟩ := first
    exact .head (.extend store env name binding)
      (ih (store.extend env name binding).2 (store.extend env name binding).1)

/-- A write that is refused has registered its address. -/
theorem write (address : Address) (knowledge : Knowledge) (store : Store) :
    store.Steps (stateAfter (Store.write address knowledge) store) := by
  have hregister : Step store (store.register address).2 := .register store address
  simp only [stateAfter, write_eq]
  cases hrevised : (store.register address).2.revised (store.register address).1 knowledge with
  | ok history => exact (ReflTransGen.single hregister).tail (.commit hrevised)
  | error conflict => exact .single hregister

theorem input (value : Value) (store : Store) :
    store.Steps (stateAfter (Store.input value) store) := by
  rw [stateAfter, input_eq]
  exact .head (.register store _) (write _ _ store.fresh.2)

theorem update (node : NodeId) (value : Value) (store : Store) :
    store.Steps (stateAfter (Store.update node value) store) := by
  have hwrite := write (store.address node) (.of .given value) store
  rw [stateAfter, update_eq]
  rw [stateAfter] at hwrite
  cases hrun : Store.write (store.address node) (.of .given value) store <;>
  · simp only [hrun] at hwrite ⊢
    exact hwrite

theorem primitive (primitive : Primitive) (store : Store) :
    store.Steps (stateAfter (Store.primitive primitive) store) := by
  have hinput := input (.primitive primitive.value) store
  cases hlookup : store.library.lookup primitive with
  | some node =>
    rw [stateAfter, primitive_of_some hlookup]
  | none =>
    rw [stateAfter, primitive_of_none hlookup]
    rw [stateAfter] at hinput
    cases hrun : Store.input (.primitive primitive.value) store with
    | ok node middle =>
      rw [hrun] at hinput
      exact hinput.tail (.note middle primitive node)
    | error error middle =>
      rw [hrun] at hinput
      exact hinput

end Steps

end Store

namespace Store

theorem write_error {address : Address} {knowledge : Knowledge} {store final : Store} {error : Error}
    (hwrite : Store.write address knowledge store = .error error final) :
    error.isBottomless = false := by
  rw [write_eq] at hwrite
  split at hwrite
  · cases hwrite
  · cases hwrite
    rfl

theorem primitive_error {primitive : Primitive} {store final : Store} {error : Error}
    (hprimitive : Store.primitive primitive store = .error error final) :
    error.isBottomless = false := by
  cases hlookup : store.library.lookup primitive with
  | some node =>
    rw [primitive_of_some hlookup] at hprimitive
    cases hprimitive
  | none =>
    rw [primitive_of_none hlookup, input_eq] at hprimitive
    split at hprimitive
    · cases hprimitive
    case h_2 hwrite =>
      cases hprimitive
      exact write_error hwrite

end Store

/-- Computations inherit the property from their parts.  It holds of whatever changes the store in
steps, and of all failures but those of a match that gives up its descent. -/
structure Inherited (property : ∀ {α : Type}, Evaluating α → Prop) : Prop where
  of_pure : ∀ {α : Type} (result : α), property (pure result)
  of_throw : ∀ {α : Type} {error : Error}, error.isBottomless = false →
    property (throw error : Evaluating α)
  bind : ∀ {α β : Type} {computation : Evaluating α} {next : α → Evaluating β},
    property computation → (∀ result, property (next result)) → property (computation >>= next)
  inspect : ∀ {α : Type} (read : Store → α), property (Machine.inspect read)
  change : ∀ {α : Type} {operation : Store → α × Store},
    (∀ store : Store, store.Steps (operation store).2) → property (Machine.change operation)
  perform : ∀ {α : Type} {operation : Storing α},
    (∀ store : Store, store.Steps (stateAfter operation store)) →
    (∀ {store error final}, operation store = .error error final → error.isBottomless = false) →
    property (Machine.perform operation)
  of_get : property (get : Evaluating Machine)
  of_modify : ∀ {f : Machine → Machine}, (∀ machine, (f machine).store = machine.store) →
    property (modify f : Evaluating PUnit)

/-- The property as a judgement: it holds of whatever goes on from the results. -/
def Inherits (property : ∀ {α : Type}, Evaluating α → Prop) {α : Type}
    (computation _ : Evaluating α) (holds : α → Prop) : Prop :=
  ∀ (β : Type) (next : α → Evaluating β), (∀ result, holds result → property (next result)) →
    property (computation >>= next)

namespace Inherited

variable {property : ∀ {α : Type}, Evaluating α → Prop} {program : Program} {evaluate : Evaluator}

section Parts

variable (hproperty : Inherited @property)
include hproperty

/-- Forgetting and remembering outcomes does not touch the store. -/
theorem memoized {compute : Evaluating Outcome} (hcompute : property compute) (settings : Settings)
    (request : Request) : property (Machine.memoized settings request compute) := by
  have hforget : property (modify Machine.synchronize : Evaluating PUnit) := by
    refine hproperty.of_modify fun machine ↦ ?_
    unfold Machine.synchronize
    split <;> rfl
  have hremember : ∀ outcome,
      property (modify (Machine.remember settings request outcome) : Evaluating PUnit) := by
    refine fun outcome ↦ hproperty.of_modify fun machine ↦ ?_
    unfold Machine.remember
    split <;> rfl
  refine hproperty.bind hforget fun _ ↦ hproperty.bind hproperty.of_get fun machine ↦ ?_
  split
  · exact hproperty.of_pure _
  · exact hproperty.bind hcompute fun outcome ↦ hproperty.bind (hremember outcome) fun _ ↦
      hproperty.of_pure outcome

theorem register (address : Address) :
    property (Machine.change fun store ↦ store.register address) :=
  hproperty.change fun store ↦ .single (.register store address)

theorem extend (env : EnvId) (name : Symbol) (binding : Binding) :
    property (Machine.change fun store ↦ store.extend env name binding) :=
  hproperty.change fun store ↦ .single (.extend store env name binding)

theorem concat (inner outer : EnvId) :
    property (Machine.change fun store ↦ store.concat inner outer) :=
  hproperty.change fun store ↦ .extendAll store outer (store.envs.entries inner).reverse

theorem write (address : Address) (knowledge : Knowledge) :
    property (Machine.perform (Store.write address knowledge)) :=
  hproperty.perform (.write address knowledge) Store.write_error

theorem primitive (primitive : Primitive) :
    property (Machine.perform (Store.primitive primitive)) :=
  hproperty.perform (.primitive primitive) Store.primitive_error

theorem inherits {computation : Evaluating α} (hcomputation : property computation) :
    Inherits @property computation computation fun _ ↦ True :=
  fun _ _ hnext ↦ hproperty.bind hcomputation fun result ↦ hnext result trivial

/-- The property is regained where nothing goes on. -/
theorem of_inherits {computation computation' : Evaluating α} {holds : α → Prop}
    (hinherits : Inherits @property computation computation' holds) : property computation := by
  rw [← bind_pure computation]
  exact hinherits _ _ fun result _ ↦ hproperty.of_pure result

theorem parametric : Parametric (Inherits @property) where
  of_pure hholds _ _ hnext := by
    rw [pure_bind]
    exact hnext _ hholds
  of_throw herror _ _ _ := hproperty.of_throw herror
  bind hfirst hsecond _ _ hnext := by
    rw [bind_assoc]
    exact hfirst _ _ fun result hresult ↦ hsecond result hresult _ _ hnext
  value _ := hproperty.inherits (hproperty.inspect _)
  address _ := hproperty.inherits (hproperty.inspect _)
  binding _ _ := hproperty.inherits (hproperty.inspect _)
  register env expr := hproperty.inherits (hproperty.register (.evaluation env expr))
  extend env name binding := hproperty.inherits (hproperty.extend env name binding)
  concat inner outer := hproperty.inherits (hproperty.concat inner outer)
  extendAll env bindings :=
    hproperty.inherits (hproperty.change fun store ↦ .extendAll store env bindings)
  write env expr knowledge := hproperty.inherits (hproperty.write (.evaluation env expr) knowledge)
  primitive primitive := hproperty.inherits (hproperty.primitive primitive)

theorem step {reach : Nat} (hevaluate : ∀ env expr demand, property (evaluate env expr demand))
    (hmatch : ∀ node demand, property (Matching.node program reach evaluate node demand))
    (env : EnvId) (expr : ExprId) (demand : DemandId) :
    property (Rules.step program reach evaluate env expr demand) :=
  hproperty.of_inherits <| hproperty.parametric.step (.trivial program)
    (fun env expr demand _ ↦ hproperty.inherits (hevaluate env expr demand))
    (fun node demand _ ↦ hproperty.inherits (hmatch node demand)) trivial env expr

theorem bindPrimitives (env : EnvId) (primitives : List Primitive) :
    property (Evaluation.bindPrimitives program env primitives) :=
  hproperty.of_inherits (hproperty.parametric.bindPrimitives env primitives)

end Parts

/-- Evaluation inherits the property if matches inherit it from the evaluation of parts. -/
theorem nested (hproperty : Inherited @property) {settings : Settings}
    (hmatch : ∀ {evaluate : Evaluator}, (∀ env expr demand, property (evaluate env expr demand)) →
      ∀ node demand, property (Matching.node program settings.reach evaluate node demand))
    (depth : Nat) (env : EnvId) (expr : ExprId) (demand : DemandId) :
    property (Evaluation.nested program settings depth env expr demand) := by
  induction depth generalizing env expr demand with
  | zero => exact hproperty.memoized (hproperty.of_throw rfl) settings _
  | succ depth ih =>
    exact hproperty.memoized (hproperty.step ih (hmatch ih) env expr demand) settings _

end Inherited

/-! ## Computations that change the store in steps -/

/-- Wherever the computation stops, it has led there in steps. -/
def Stepwise (computation : Evaluating α) : Prop :=
  ∀ machine : Machine, machine.store.Steps (stateAfter computation machine).store

namespace Stepwise

theorem of_pure (result : α) : Stepwise (pure result) := fun _ ↦ .refl

theorem of_throw (error : Error) : Stepwise (throw error : Evaluating α) := fun _ ↦ .refl

theorem bind {computation : Evaluating α} {next : α → Evaluating β} (hfirst : Stepwise computation)
    (hnext : ∀ result, Stepwise (next result)) : Stepwise (computation >>= next) := by
  intro machine
  have hsteps := hfirst machine
  simp only [stateAfter, Bind.bind, EStateM.bind] at hsteps ⊢
  cases hrun : computation machine with
  | ok result middle =>
    simp only [hrun] at hsteps ⊢
    exact hsteps.trans (hnext result middle)
  | error error middle =>
    simp only [hrun] at hsteps ⊢
    exact hsteps

theorem perform {operation : Storing α}
    (hoperation : ∀ store : Store, store.Steps (stateAfter operation store)) :
    Stepwise (Machine.perform operation) := by
  intro machine
  have hsteps := hoperation machine.store
  simp only [stateAfter, Machine.perform] at hsteps ⊢
  cases hrun : operation machine.store <;> simpa only [hrun] using hsteps

theorem inherited : Inherited @Stepwise where
  of_pure := of_pure
  of_throw _ := of_throw _
  bind := bind
  inspect _ _ := .refl
  change hoperation machine := hoperation machine.store
  perform hoperation _ := perform hoperation
  of_get _ := .refl
  of_modify {f} hstore machine := by
    change machine.store.Steps (f machine).store
    rw [hstore]

section Matching

variable {program : Program} {evaluate : Evaluator}

theorem within (hevaluate : ∀ env expr demand, Stepwise (evaluate env expr demand)) (steps : Nat)
    (node : NodeId) (demand : DemandId) :
    Stepwise (Matching.within program evaluate steps node demand) :=
  inherited.of_inherits <| inherited.parametric.within (.trivial program) (fun _ _ _ _ ↦ of_throw _)
    (fun env expr demand _ ↦ inherited.inherits (hevaluate env expr demand)) steps node trivial

theorem matchNode (hevaluate : ∀ env expr demand, Stepwise (evaluate env expr demand)) (reach : Nat)
    (node : NodeId) (demand : DemandId) :
    Stepwise (Matching.node program reach evaluate node demand) :=
  (inherited.inspect _).bind fun _ ↦ within hevaluate _ node demand

end Matching

theorem nested (program : Program) (settings : Settings) (depth : Nat) (env : EnvId) (expr : ExprId)
    (demand : DemandId) : Stepwise (Evaluation.nested program settings depth env expr demand) :=
  inherited.nested (fun hevaluate ↦ matchNode hevaluate settings.reach) depth env expr demand

theorem evaluate (program : Program) (settings : Settings) (env : EnvId) (expr : ExprId) :
    Stepwise (Evaluation.evaluate program settings env expr) :=
  (nested program settings settings.maxDepth env expr .everything).bind fun _ ↦ of_pure _

theorem openLibrary (program : Program) : Stepwise (Evaluation.openLibrary program) :=
  inherited.bindPrimitives .empty Primitive.all

end Stepwise

end Whence
