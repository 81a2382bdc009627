import Whence.Proofs.Machines
import Whence.Proofs.Parts
import Whence.Proofs.Persistence

/-!
# How far a match descends

A match may descend as far as there are nodes and demands at its start, and `reach` steps more.  It
gives up only if it has come further, from part to part of values that are known.  Then a value
contains itself, or at least `reach` nodes have been made on the way.
-/

namespace Whence

variable {α β : Type} {store final : Store} {reach : Nat}

namespace Store

theorem Step.size_le (hstep : Step store final) : store.size ≤ final.size := by
  cases hstep with
  | register address => exact (register_grows store address).size_le
  | commit _ => simp [setHistory, size]
  | extend env name binding => exact Nat.le_refl _
  | note primitive node => exact Nat.le_refl _

theorem Steps.size_le (hsteps : store.Steps final) : store.size ≤ final.size := by
  induction hsteps with
  | refl => exact Nat.le_refl _
  | tail _ hstep ih => exact Nat.le_trans ih hstep.size_le

/-- Later writes may refine numbers and closures, but the parts of a value stay. -/
theorem Steps.isPart (hsteps : store.Steps final) (hrevisions : store.revisions = {})
    {whole part : NodeId} (hpart : store.IsPart whole part) : final.IsPart whole part := by
  obtain ⟨value, hvalue, hmem⟩ := hpart
  cases value with
  | constructor tag args =>
    rw [value?_eq, knowledge?_of_revisions hrevisions] at hvalue
    obtain ⟨knowledge, hlookup, hknowledge⟩ := Option.bind_eq_some_iff.1 hvalue
    obtain ⟨later, hlater, -, hbelow⟩ :=
      ((Move.steps hsteps).outlives.history whole).entries hlookup
    have hsame : later.value = some (.constructor tag args) := by
      rw [hknowledge] at hbelow
      cases hvalue : later.value with
      | none =>
        rw [hvalue] at hbelow
        cases hbelow
      | some value =>
        rw [hvalue] at hbelow
        have hvalues : Value.Below (.constructor tag args) value := hbelow
        cases hvalues
        rfl
    refine ⟨.constructor tag args, ?_, hmem⟩
    rw [value?_eq, knowledge?_of_revisions (hsteps.revisions_eq.trans hrevisions), hlater]
    exact hsame
  | _ => cases hmem

end Store

theorem Stepwise.steps_ok {computation : Evaluating α} (hstepwise : Stepwise computation)
    {machine final : Machine} {result : α} (hrun : computation machine = .ok result final) :
    machine.store.Steps final.store := by
  have hsteps := hstepwise machine
  rw [stateAfter, hrun] at hsteps
  exact hsteps

theorem Stepwise.steps_error {computation : Evaluating α} (hstepwise : Stepwise computation)
    {machine final : Machine} {error : Error} (hrun : computation machine = .error error final) :
    machine.store.Steps final.store := by
  have hsteps := hstepwise machine
  rw [stateAfter, hrun] at hsteps
  exact hsteps

namespace Matching

variable {program : Program} {matchOne : NodeId → DemandId → Evaluating Outcome}
  {machine final : Machine} {bottom : NodeId}

theorem forceAll_bottomless {force : NodeId → Evaluating Outcome}
    (hforce : ∀ node, Stepwise (force node)) {args : List NodeId}
    (hrun : forceAll force args machine = .error (.bottomless bottom) final) :
    ∃ arg ∈ args, ∃ middle : Machine, machine.store.Steps middle.store ∧
      force arg middle = .error (.bottomless bottom) final := by
  induction args generalizing machine with
  | nil => cases hrun
  | cons arg args ih =>
    obtain hfirst | ⟨outcome, middle, hfirst, hrest⟩ := run_bind_eq_error hrun
    · exact ⟨arg, List.mem_cons_self, machine, .refl, hfirst⟩
    · obtain ⟨other, hother, later, hsteps, hfails⟩ := ih hrest
      exact ⟨other, List.mem_cons_of_mem _ hother, later,
        ((hforce arg).steps_ok hfirst).trans hsteps, hfails⟩

theorem arguments_bottomless (hmatch : ∀ node demand, Stepwise (matchOne node demand)) {count : Nat}
    {outcome : Outcome} {args : List NodeId}
    (hrun : arguments program count matchOne outcome args machine =
      .error (.bottomless bottom) final) :
    ∃ arg ∈ args, ∃ (demand : DemandId) (middle : Machine), machine.store.Steps middle.store ∧
      matchOne arg demand middle = .error (.bottomless bottom) final := by
  induction args generalizing outcome machine with
  | nil => cases hrun
  | cons arg args ih =>
    generalize hcomputation : arguments program count matchOne outcome (arg :: args) = computation
      at hrun
    unfold arguments at hcomputation
    split at hcomputation
    case h_1 demand _ =>
      subst hcomputation
      obtain hfirst | ⟨matched, middle, hfirst, hrest⟩ := run_bind_eq_error hrun
      · exact ⟨arg, List.mem_cons_self, demand, machine, .refl, hfirst⟩
      · obtain hconcat | ⟨env, later, hconcat, hrest⟩ := run_bind_eq_error hrest
        · cases hconcat
        · obtain ⟨other, hother, demand', last, hsteps, hfails⟩ := ih hrest
          have hlater := ((hmatch arg demand).steps_ok hfirst).trans
            ((Stepwise.inherited.concat matched.env outcome.env).steps_ok hconcat)
          exact ⟨other, List.mem_cons_of_mem _ hother, demand', last, hlater.trans hsteps, hfails⟩
    case h_2 =>
      subst hcomputation
      cases hrun

/-- A match that gives up has given up at a part of the value. -/
theorem value_bottomless (hmatch : ∀ node demand, Stepwise (matchOne node demand)) {node : NodeId}
    {demand : DemandId} {known : Value}
    (hrun : value program matchOne node demand known machine = .error (.bottomless bottom) final) :
    ∃ part ∈ known.parts, ∃ (demand : DemandId) (middle : Machine),
      machine.store.Steps middle.store ∧
      matchOne part demand middle = .error (.bottomless bottom) final := by
  generalize hcomputation : value program matchOne node demand known = computation at hrun
  unfold value at hcomputation
  split at hcomputation
  case h_1 =>
    subst hcomputation
    obtain hforce | ⟨_, middle, -, hrest⟩ := run_bind_eq_error hrun
    · obtain ⟨arg, harg, middle, hsteps, hfails⟩ :=
        forceAll_bottomless (fun arg ↦ hmatch arg .everything) hforce
      exact ⟨arg, harg, .everything, middle, hsteps, hfails⟩
    · cases hrest
  case h_7 =>
    split at hcomputation
    · subst hcomputation
      exact arguments_bottomless hmatch hrun
    · subst hcomputation
      cases hrun
  all_goals
    subst hcomputation
    cases hrun

theorem within_bottomless {evaluate : Evaluator} {steps : Nat} {node : NodeId} {demand : DemandId}
    (hrun : within program evaluate (steps + 1) node demand machine =
      .error (.bottomless bottom) final) :
    (∃ known, machine.store.value? node = some known ∧
      value program (within program evaluate steps) node demand known machine =
        .error (.bottomless bottom) final) ∨
    ∃ env expr, evaluate env expr demand machine = .error (.bottomless bottom) final := by
  generalize hcomputation : within program evaluate (steps + 1) node demand = computation at hrun
  unfold within at hcomputation
  split at hcomputation <;> subst hcomputation
  case h_1 => cases hrun
  case h_2 =>
    cases hvalue : machine.store.value? node with
    | some known =>
      simp only [run_bind, Machine.run_inspect, hvalue] at hrun
      exact .inl ⟨known, rfl, hrun⟩
    | none =>
      cases haddress : machine.store.address node with
      | evaluation env expr =>
        simp only [run_bind, Machine.run_inspect, hvalue, haddress] at hrun
        exact .inr ⟨env, expr, hrun⟩
      | input source =>
        simp only [run_bind, Machine.run_inspect, hvalue, haddress] at hrun
        cases hrun

end Matching

/-- The computation leads to its end in steps, and gives up a descent only where a value is as deep as
the store was big at the start and `reach` more. -/
structure Persevering (reach : Nat) (computation : Evaluating α) : Prop where
  stepwise : Stepwise computation
  deep : ∀ {machine final : Machine} {bottom : NodeId}, machine.store.revisions = {} →
    computation machine = .error (.bottomless bottom) final →
    final.store.IsDeep (machine.store.size + reach)

namespace Persevering

/-- A computation that does not give up a descent. -/
theorem of_stepwise {computation : Evaluating α} (hstepwise : Stepwise computation)
    (herror : ∀ {machine final error}, computation machine = .error error final →
      error.isBottomless = false) : Persevering reach computation :=
  ⟨hstepwise, fun _ hrun ↦ Bool.noConfusion (herror hrun)⟩

theorem bind {computation : Evaluating α} {next : α → Evaluating β}
    (hfirst : Persevering reach computation) (hnext : ∀ result, Persevering reach (next result)) :
    Persevering reach (computation >>= next) where
  stepwise := hfirst.stepwise.bind fun result ↦ (hnext result).stepwise
  deep {machine final bottom} hrevisions hrun := by
    obtain hfails | ⟨result, middle, hresult, hfails⟩ := run_bind_eq_error hrun
    · exact hfirst.deep hrevisions hfails
    · have hsteps := hfirst.stepwise.steps_ok hresult
      exact ((hnext result).deep (hsteps.revisions_eq.trans hrevisions) hfails).mono
        (Nat.add_le_add_right hsteps.size_le reach)

theorem inherited (reach : Nat) : Inherited (Persevering reach) where
  of_pure result := of_stepwise (.of_pure result) nofun
  of_throw herror := of_stepwise (.of_throw _) fun hrun ↦ by
    cases hrun
    exact herror
  bind := bind
  inspect read := of_stepwise (Stepwise.inherited.inspect read) nofun
  change hoperation := of_stepwise (Stepwise.inherited.change hoperation) nofun
  perform hoperation herror := of_stepwise (.perform hoperation) fun hrun ↦ by
    simp only [Machine.perform] at hrun
    split at hrun
    · cases hrun
    case h_2 hfails =>
      cases hrun
      exact herror hfails
  of_get := of_stepwise Stepwise.inherited.of_get nofun
  of_modify hstore := of_stepwise (Stepwise.inherited.of_modify hstore) nofun

section Matching

variable {program : Program} {evaluate : Evaluator}

/-- A match that gives up has descended all steps from its node, or an evaluation on its way has given
up. -/
theorem within (hevaluate : ∀ env expr demand, Persevering reach (evaluate env expr demand))
    {steps : Nat} {node : NodeId} {demand : DemandId} {machine final : Machine} {bottom : NodeId}
    (hrevisions : machine.store.revisions = {})
    (hrun : Matching.within program evaluate steps node demand machine =
      .error (.bottomless bottom) final) :
    (∃ path, path.length = steps ∧ (node :: path).IsChain final.store.IsPart) ∨
      final.store.IsDeep (machine.store.size + reach) := by
  have hwithin : ∀ steps node demand,
      Stepwise (Matching.within program evaluate steps node demand) :=
    Stepwise.within fun env expr demand ↦ (hevaluate env expr demand).stepwise
  induction steps generalizing node demand machine with
  | zero => exact .inl ⟨[], rfl, .singleton node⟩
  | succ steps ih =>
    have hfinal := (hwithin (steps + 1) node demand).steps_error hrun
    obtain ⟨known, hvalue, hmatch⟩ | ⟨env, expr, hfails⟩ := Matching.within_bottomless hrun
    · obtain ⟨part, hpart, demand', middle, hsteps, hfails⟩ :=
        Matching.value_bottomless (hwithin steps) hmatch
      obtain ⟨path, hlength, hchain⟩ | hdeep := ih (hsteps.revisions_eq.trans hrevisions) hfails
      · have hlink : final.store.IsPart node part :=
          hfinal.isPart hrevisions ⟨known, hvalue, hpart⟩
        exact .inl ⟨part :: path, by rw [List.length_cons, hlength], .cons_cons hlink hchain⟩
      · exact .inr (hdeep.mono (Nat.add_le_add_right hsteps.size_le reach))
    · exact .inr ((hevaluate env expr demand).deep hrevisions hfails)

theorem matchNode (hevaluate : ∀ env expr demand, Persevering reach (evaluate env expr demand))
    (node : NodeId) (demand : DemandId) :
    Persevering reach (Matching.node program reach evaluate node demand) where
  stepwise :=
    .matchNode (fun env expr demand ↦ (hevaluate env expr demand).stepwise) reach node demand
  deep {machine final bottom} hrevisions hrun := by
    have hwithin : Matching.within program evaluate
        (machine.store.size + program.demands.size + reach) node demand machine =
          .error (.bottomless bottom) final := hrun
    obtain ⟨path, hlength, hchain⟩ | hdeep := within hevaluate hrevisions hwithin
    · exact ⟨node, path, by omega, hchain⟩
    · exact hdeep

end Matching

theorem evaluate (program : Program) (settings : Settings) (env : EnvId) (expr : ExprId) :
    Persevering settings.reach (Evaluation.evaluate program settings env expr) :=
  ((inherited settings.reach).nested matchNode settings.maxDepth env expr .everything).bind
    fun _ ↦ (inherited settings.reach).of_pure _

end Persevering

/-- An evaluation that gives up a descent leaves a store in which a value contains itself, or it has
made as many nodes as its settings allow for. -/
theorem Evaluation.evaluate_bottomless {program : Program} {settings : Settings} {env : EnvId}
    {expr : ExprId} {machine final : Machine} {bottom : NodeId}
    (hrevisions : machine.store.revisions = {})
    (hrun : Evaluation.evaluate program settings env expr machine =
      .error (.bottomless bottom) final) :
    final.store.IsCyclic ∨ machine.store.size + settings.reach ≤ final.store.size :=
  ((Persevering.evaluate program settings env expr).deep hrevisions hrun).isCyclic_or_le

end Whence
