import Whence.Proofs.Derivation.Failure
import Whence.Proofs.Ordering

/-!
# What a demand finds at a node

What a match comes to, told without evaluation and without environments: the names that are bound,
what follows, and the arguments that were examined on the way.  A store determines what a demand
finds.  It finds the same after the store has been refined, which may add values and say more about
numbers and closures, and it finds the same at two nodes whose values were made from one.
-/

namespace Whence

variable {program : Program} {store final : Store}

/-- What a demand finds at a node. -/
structure Finding where
  /-- The last name that was bound comes first. -/
  bindings : List (Symbol × Binding)
  /-- What follows the demand. -/
  next : Next
  /-- The arguments whose form was examined, each before its own arguments. -/
  inspected : List NodeId
  deriving DecidableEq, Repr

namespace Finding

/-- Nothing is bound and no argument is examined. -/
def plain (next : Next) : Finding := ⟨[], next, []⟩

/-- What is found at one argument and at those after it. -/
def join (program : Program) (arg : NodeId) (demand : DemandId) (first rest : Finding) : Finding :=
  ⟨rest.bindings ++ first.bindings, rest.next,
    (if (program.demand demand).isBind then [] else [arg]) ++ first.inspected ++ rest.inspected⟩

end Finding

mutual

/-- The demand is met by what is known about the node. -/
inductive Finds (program : Program) (store : Store) : NodeId → DemandId → Finding → Prop
  | bind {node : NodeId} {demand : DemandId} {name : Symbol} {next : Next} :
      program.demand demand = .bind name next →
      Finds program store node demand ⟨[(name, .node node)], next, []⟩
  | kind {node : NodeId} {demand : DemandId} {value : Value} {next : Next} :
      store.value? node = some value → (program.demand demand).accepts? value = some next →
      Finds program store node demand (.plain next)
  | constructor {node : NodeId} {demand : DemandId} {cases : List (Symbol × Next)} {tag : Symbol}
      {args : List NodeId} {next : Next} {found : Finding} :
      program.demand demand = .constructor cases →
      store.value? node = some (.constructor tag args) → cases.lookup tag = some next →
      FindsAll program store next args found → Finds program store node demand found
  | everything {node : NodeId} {demand : DemandId} {next : Next} :
      program.demand demand = .everything next → Forced store (fun _ ↦ True) node →
      Finds program store node demand (.plain next)

/-- Each argument meets the demand that follows the one before it. -/
inductive FindsAll (program : Program) (store : Store) : Next → List NodeId → Finding → Prop
  | nil {next : Next} : FindsAll program store next [] (.plain next)
  | cons {demand : DemandId} {arg : NodeId} {args : List NodeId} {first rest : Finding} :
      Finds program store arg demand first → FindsAll program store first.next args rest →
      FindsAll program store (.demand demand) (arg :: args) (.join program arg demand first rest)

end

mutual

theorem Finds.unique {node : NodeId} {demand : DemandId} {found found' : Finding} :
    Finds program store node demand found → Finds program store node demand found' →
      found = found'
  | .bind hdemand, hother => by
    cases hother with
    | bind hdemand' =>
      rw [hdemand] at hdemand'
      cases hdemand'
      rfl
    | kind _ haccepts => simp [hdemand, Demand.accepts?] at haccepts
    | constructor hdemand' _ _ _ => simp [hdemand] at hdemand'
    | everything hdemand' _ => simp [hdemand] at hdemand'
  | .kind hvalue haccepts, hother => by
    cases hother with
    | bind hdemand' => simp [hdemand', Demand.accepts?] at haccepts
    | kind hvalue' haccepts' =>
      rw [hvalue] at hvalue'
      cases hvalue'
      rw [haccepts] at haccepts'
      cases haccepts'
      rfl
    | constructor hdemand' _ _ _ => simp [hdemand', Demand.accepts?] at haccepts
    | everything hdemand' _ => simp [hdemand', Demand.accepts?] at haccepts
  | .constructor hdemand hvalue hcase hargs, hother => by
    cases hother with
    | bind hdemand' => simp [hdemand] at hdemand'
    | kind _ haccepts => simp [hdemand, Demand.accepts?] at haccepts
    | constructor hdemand' hvalue' hcase' hargs' =>
      rw [hdemand] at hdemand'
      cases hdemand'
      rw [hvalue] at hvalue'
      cases hvalue'
      rw [hcase] at hcase'
      cases hcase'
      exact hargs.unique hargs'
    | everything hdemand' _ => simp [hdemand] at hdemand'
  | .everything hdemand _, hother => by
    cases hother with
    | bind hdemand' => simp [hdemand] at hdemand'
    | kind _ haccepts => simp [hdemand, Demand.accepts?] at haccepts
    | constructor hdemand' _ _ _ => simp [hdemand] at hdemand'
    | everything hdemand' _ =>
      rw [hdemand] at hdemand'
      cases hdemand'
      rfl

theorem FindsAll.unique {next : Next} {args : List NodeId} {found found' : Finding} :
    FindsAll program store next args found → FindsAll program store next args found' →
      found = found'
  | .nil, .nil => rfl
  | .cons hfirst hrest, .cons hfirst' hrest' => by
    cases hfirst.unique hfirst'
    cases hrest.unique hrest'
    rfl

end

/-- A demand that looks at a node finds a value there. -/
theorem Finds.exists_value {node : NodeId} {demand : DemandId} {found : Finding}
    (hfinds : Finds program store node demand found)
    (hbind : (program.demand demand).isBind = false) :
    ∃ value, store.value? node = some value := by
  cases hfinds with
  | bind hdemand => simp [hdemand, Demand.isBind] at hbind
  | kind hvalue _ => exact ⟨_, hvalue⟩
  | constructor _ hvalue _ _ => exact ⟨_, hvalue⟩
  | everything _ hforced =>
    cases hforced with
    | intro _ hvalue _ => exact ⟨_, hvalue⟩

theorem Finds.forced {node : NodeId} {demand : DemandId} {next : Next} {found : Finding}
    (hfinds : Finds program store node demand found)
    (hdemand : program.demand demand = .everything next) : Forced store (fun _ ↦ True) node := by
  cases hfinds with
  | bind hdemand' => simp [hdemand] at hdemand'
  | kind _ haccepts => simp [hdemand, Demand.accepts?] at haccepts
  | constructor hdemand' _ _ _ => simp [hdemand] at hdemand'
  | everything _ hforced => exact hforced

namespace Value

/-- A value that says more has the same parts. -/
theorem Below.parts_eq {value later : Value} (hbelow : Value.Below value later) :
    later.parts = value.parts := by
  cases hbelow <;> rfl

/-- A value that says more is accepted alike. -/
theorem Below.accepts?_eq {value later : Value} (hbelow : Value.Below value later)
    (demand : Demand) : demand.accepts? later = demand.accepts? value := by
  cases hbelow <;> cases demand <;> rfl

end Value

namespace Store

/-- The node has a value that says at least as much. -/
def Tells (store : Store) (node : NodeId) (value : Value) : Prop :=
  ∃ later, store.value? node = some later ∧ Value.Below value later

/-- The second store has the addresses and environments of the first one and tells all its values. -/
structure Refines (final store : Store) : Prop where
  lookup : ∀ {address node}, store.lookup? address = some node → final.lookup? address = some node
  value : ∀ {node value}, store.value? node = some value → final.Tells node value
  envs : store.envs.Grows final.envs

theorem Tells.trans {node : NodeId} {value later : Value} (htells : store.Tells node later)
    (hbelow : Value.Below value later) : store.Tells node value := by
  obtain ⟨last, hlast, hbelow'⟩ := htells
  have hbelow'' : below value last := below_trans hbelow hbelow'
  exact ⟨last, hlast, hbelow''⟩

theorem Refines.refl (store : Store) : store.Refines store :=
  ⟨id, fun {_ value} hvalue ↦ ⟨value, hvalue, below_refl value⟩, .refl _⟩

theorem Refines.tells {node : NodeId} {value : Value} (hrefines : final.Refines store)
    (htells : store.Tells node value) : final.Tells node value := by
  obtain ⟨later, hlater, hbelow⟩ := htells
  exact (hrefines.value hlater).trans hbelow

theorem Refines.trans {middle : Store} (hsecond : final.Refines middle)
    (hfirst : middle.Refines store) : final.Refines store where
  lookup hlookup := hsecond.lookup (hfirst.lookup hlookup)
  value hvalue := hsecond.tells (hfirst.value hvalue)
  envs := hfirst.envs.trans hsecond.envs

theorem Grows.refines (hgrows : store.Grows final) : final.Refines store where
  lookup := hgrows.lookup
  value {_ value} hvalue := ⟨value, hgrows.value hvalue, below_refl value⟩
  envs := hgrows.envs

end Store

theorem Forced.refine {node : NodeId} (hforced : Forced store (fun _ ↦ True) node)
    (hrefines : final.Refines store) : Forced final (fun _ ↦ True) node := by
  induction hforced with
  | intro _ hvalue _ ih =>
    obtain ⟨later, hlater, hbelow⟩ := hrefines.value hvalue
    exact .intro trivial hlater fun part hpart ↦ ih part (hbelow.parts_eq ▸ hpart)

mutual

/-- What is found stays to be found. -/
theorem Finds.refine (hrefines : final.Refines store) {node : NodeId} {demand : DemandId}
    {found : Finding} :
    Finds program store node demand found → Finds program final node demand found
  | .bind hdemand => .bind hdemand
  | .kind hvalue haccepts => by
    obtain ⟨later, hlater, hbelow⟩ := hrefines.value hvalue
    exact .kind hlater ((hbelow.accepts?_eq _).trans haccepts)
  | .constructor hdemand hvalue hcase hargs => by
    obtain ⟨_, hlater, ⟨⟩⟩ := hrefines.value hvalue
    exact .constructor hdemand hlater hcase (hargs.refine hrefines)
  | .everything hdemand hforced => .everything hdemand (hforced.refine hrefines)

theorem FindsAll.refine (hrefines : final.Refines store) {next : Next} {args : List NodeId}
    {found : Finding} :
    FindsAll program store next args found → FindsAll program final next args found
  | .nil => .nil
  | .cons hfirst hrest => .cons (hfirst.refine hrefines) (hrest.refine hrefines)

end

/-- A demand that looks at a node finds the same at every node that tells its value. -/
theorem Finds.transfer {source node : NodeId} {demand : DemandId} {found : Finding} {value : Value}
    (hfinds : Finds program store source demand found)
    (hbind : (program.demand demand).isBind = false) (hvalue : store.value? source = some value)
    (hrefines : final.Refines store) (htells : final.Tells node value) :
    Finds program final node demand found := by
  obtain ⟨later, hlater, hbelow⟩ := htells
  cases hfinds with
  | bind hdemand => simp [hdemand, Demand.isBind] at hbind
  | kind hvalue' haccepts =>
    rw [hvalue] at hvalue'
    cases hvalue'
    exact .kind hlater ((hbelow.accepts?_eq _).trans haccepts)
  | constructor hdemand hvalue' hcase hargs =>
    rw [hvalue] at hvalue'
    cases hvalue'
    cases hbelow
    exact .constructor hdemand hlater hcase (hargs.refine hrefines)
  | everything hdemand hforced =>
    cases hforced with
    | intro _ hvalue' hparts =>
      rw [hvalue] at hvalue'
      cases hvalue'
      refine .everything hdemand (.intro trivial hlater fun part hpart ↦ ?_)
      exact (hparts part (hbelow.parts_eq ▸ hpart)).refine hrefines

end Whence
