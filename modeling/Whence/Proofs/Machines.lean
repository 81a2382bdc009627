import Whence.Evaluation.Basic
import Whence.Proofs.Stopping

/-!
# Machines

A machine is asked to change its store, to open the library and to evaluate, and each time it may
succeed or fail.  It remembers outcomes only as long as the revision is the same.
-/

namespace Whence.Machine

variable {machine : Machine} {settings : Settings} {request : Request} {outcome : Outcome}

/-- What a call returns. -/
inductive Answer where
  | done
  | node (id : NodeId)
  | env (id : EnvId)
  | revision (id : Revision)
  | outcome (outcome : Outcome)

/-- What may be asked of a machine. -/
inductive Call where
  /-- Any operation of the store, be it a write, an input or a change of the revision. -/
  | store (operation : Storing Answer)
  | openLibrary
  | evaluate (env : EnvId) (expr : ExprId) (demand : DemandId)

def Call.perform (program : Program) (settings : Settings) : Call → Evaluating Answer
  | .store operation => Machine.perform operation
  | .openLibrary => .env <$> Evaluation.openLibrary program
  | .evaluate env expr demand => .outcome <$> Evaluation.under program settings env expr demand

/-- The answer to a call, and the machine after it. -/
def answer (program : Program) (settings : Settings) (machine : Machine) (call : Call) :
    Except Error Answer × Machine :=
  match call.perform program settings machine with
  | .ok result machine => (.ok result, machine)
  | .error error machine => (.error error, machine)

/-- The machine after a run. -/
def after (program : Program) (settings : Settings) (machine : Machine) (calls : List Call) :
    Machine :=
  calls.foldl (fun machine call ↦ (machine.answer program settings call).2) machine

/-- The answers to the calls of a run, each with the machine after the call. -/
def play (program : Program) (settings : Settings) (machine : Machine) :
    List Call → List (Except Error Answer × Machine)
  | [] => []
  | call :: calls =>
    machine.answer program settings call ::
      (machine.answer program settings call).2.play program settings calls

theorem synchronize_of_revision (hrevision : machine.memo.revision = machine.store.current) :
    machine.synchronize = machine := by
  rw [synchronize, if_pos hrevision]

@[simp] theorem store_synchronize (machine : Machine) : machine.synchronize.store = machine.store := by
  unfold synchronize
  split <;> rfl

theorem revision_synchronize (machine : Machine) :
    machine.synchronize.memo.revision = machine.store.current := by
  unfold synchronize
  split
  case isTrue hrevision => exact hrevision
  case isFalse => rfl

/-- What is of use in the memory depends on the current revision only. -/
theorem memo_synchronize_congr {store : Store} (hcurrent : store.current = machine.store.current) :
    ({ machine with store } : Machine).synchronize.memo = machine.synchronize.memo := by
  unfold synchronize
  rw [hcurrent]
  split <;> rfl

/-- A memory that is of use is looked at as it is. -/
theorem memoized_synchronize (settings : Settings) (request : Request)
    (compute : Evaluating Outcome) (machine : Machine) :
    memoized settings request compute machine.synchronize =
      memoized settings request compute machine := by
  have hsynchronized : machine.synchronize.synchronize = machine.synchronize :=
    synchronize_of_revision (by rw [revision_synchronize, store_synchronize])
  rw [memoized, run_modify_bind, run_modify_bind, hsynchronized]

@[simp] theorem store_remember (settings : Settings) (request : Request) (outcome : Outcome)
    (machine : Machine) : (remember settings request outcome machine).store = machine.store := by
  unfold remember
  split <;> rfl

/-- Remembering an outcome brings nothing into the memory but the outcome. -/
theorem mem_of_remember {other : Request} {found : Outcome}
    (hfound : (remember settings request outcome machine).memo.outcomes[other]? = some found) :
    (other = request ∧ found = outcome) ∨ machine.memo.outcomes[other]? = some found := by
  unfold remember at hfound
  split at hfound
  · simp only [Std.HashMap.getElem?_insert] at hfound
    split at hfound
    · rename_i hsame
      exact .inl ⟨(eq_of_beq hsame).symm, (Option.some.inj hfound).symm⟩
    · exact .inr hfound
  · exact .inr hfound

@[simp] theorem revision_remember (settings : Settings) (request : Request) (outcome : Outcome)
    (machine : Machine) :
    (remember settings request outcome machine).memo.revision = machine.memo.revision := by
  unfold remember
  split <;> rfl

theorem run_inspect {α : Type} (read : Store → α) (machine : Machine) :
    inspect read machine = .ok (read machine.store) machine := rfl

theorem memoized_of_some (compute : Evaluating Outcome) (hsynchronized : machine.synchronize = machine)
    (hremembered : machine.remembered? settings request = some outcome) :
    memoized settings request compute machine = .ok outcome machine := by
  rw [memoized, run_modify_bind, run_get_bind, hsynchronized, hremembered]
  rfl

theorem memoized_of_none (compute : Evaluating Outcome) (hsynchronized : machine.synchronize = machine)
    (hremembered : machine.remembered? settings request = none) :
    memoized settings request compute machine =
      match compute machine with
      | .ok outcome final => .ok outcome (remember settings request outcome final)
      | .error error final => .error error final := by
  rw [memoized, run_modify_bind, run_get_bind, hsynchronized, hremembered]
  dsimp only
  rw [run_bind]
  cases compute machine <;> rfl

/-- Whether outcomes are remembered is all of the settings that the memory depends on. -/
theorem memoized_congr {settings' : Settings} (hmemoize : settings'.memoize = settings.memoize)
    (request : Request) (compute : Evaluating Outcome) :
    memoized settings' request compute = memoized settings request compute := by
  unfold memoized remembered? remember
  rw [hmemoize]

theorem remembered?_of_off (hmemoize : settings.memoize = false) :
    machine.remembered? settings request = none := by
  rw [remembered?, hmemoize]
  rfl

theorem remember_of_off (hmemoize : settings.memoize = false) :
    remember settings request outcome machine = machine := by
  rw [remember, hmemoize]
  rfl

theorem memoized_of_off (hmemoize : settings.memoize = false) (compute : Evaluating Outcome)
    (hsynchronized : machine.synchronize = machine) :
    memoized settings request compute machine = compute machine := by
  rw [memoized_of_none compute hsynchronized (remembered?_of_off hmemoize)]
  simp only [remember_of_off hmemoize]
  cases compute machine <;> rfl

end Whence.Machine
