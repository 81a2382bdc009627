import Whence.Proofs.Depth
import Whence.Proofs.Patterns
import Whence.Proofs.Reachability

/-!
# Evaluation under a pattern ends

A match descends into values without nesting evaluations, and values may contain themselves.  Still
it comes to an end under every demand but the one on everything, because each demand was made after
those it refers to.  The bound on the descent is never met: with any bound that covers the demand,
evaluation comes to the same.
-/

namespace Whence

variable {α β : Type} {program : Program}

/-- What is remembered is followed by what may follow it. -/
def Memo.Heeds (program : Program) (memo : Memo) : Prop :=
  ∀ (request : Request) (outcome : Outcome), memo.outcomes[request]? = some outcome →
    program.Follows request.demand outcome.next

/-- The computation leaves what is remembered in order.  If `settled`, it gives up no descent and the
other computation does the same. -/
def Heeding (program : Program) (settled : Prop) (computation computation' : Evaluating α)
    (holds : α → Prop) : Prop :=
  ∀ machine : Machine, machine.memo.Heeds program →
    (settled → computation' machine = computation machine) ∧
    match computation machine with
    | .ok result final => final.memo.Heeds program ∧ holds result
    | .error error final => final.memo.Heeds program ∧ (settled → error.isBottomless = false)

namespace Heeding

variable {settled : Prop} {settings : Settings}

theorem bind {computation computation' : Evaluating α} {next next' : α → Evaluating β}
    {between : α → Prop} {holds : β → Prop}
    (hfirst : Heeding program settled computation computation' between)
    (hnext : ∀ result, between result → Heeding program settled (next result) (next' result) holds) :
    Heeding program settled (computation >>= next) (computation' >>= next') holds := by
  intro machine hheeds
  obtain ⟨hsame, hrun⟩ := hfirst machine hheeds
  simp only [Bind.bind, EStateM.bind]
  cases hcomputation : computation machine with
  | ok result middle =>
    rw [hcomputation] at hsame hrun
    obtain ⟨hsame', hrun'⟩ := hnext result hrun.2 middle hrun.1
    refine ⟨fun hsettled ↦ ?_, hrun'⟩
    rw [hsame hsettled]
    exact hsame' hsettled
  | error error final =>
    rw [hcomputation] at hsame hrun
    exact ⟨fun hsettled ↦ by rw [hsame hsettled], hrun⟩

/-- A computation that does not touch the memory and cannot give up a descent. -/
theorem of_memo {computation : Evaluating α}
    (hmemo : ∀ {machine result final}, computation machine = .ok result final →
      final.memo = machine.memo)
    (herror : ∀ {machine error final}, computation machine = .error error final →
      final.memo = machine.memo ∧ error.isBottomless = false) :
    Heeding program settled computation computation fun _ ↦ True := by
  refine fun machine hheeds ↦ ⟨fun _ ↦ rfl, ?_⟩
  cases hrun : computation machine with
  | ok result final => exact ⟨hmemo hrun ▸ hheeds, trivial⟩
  | error error final => exact ⟨(herror hrun).1 ▸ hheeds, fun _ ↦ (herror hrun).2⟩

theorem inspect (read : Store → α) :
    Heeding program settled (Machine.inspect read) (Machine.inspect read) fun _ ↦ True :=
  of_memo (fun hrun ↦ by cases hrun; rfl) nofun

theorem change (operation : Store → α × Store) :
    Heeding program settled (Machine.change operation) (Machine.change operation) fun _ ↦ True :=
  of_memo (fun hrun ↦ by cases hrun; rfl) nofun

theorem perform {operation : Storing α}
    (herror : ∀ {store error final}, operation store = .error error final →
      error.isBottomless = false) :
    Heeding program settled (Machine.perform operation) (Machine.perform operation)
      fun _ ↦ True := by
  refine of_memo (fun {machine result final} hrun ↦ ?_) fun {machine error final} hrun ↦ ?_
  all_goals
    simp only [Machine.perform] at hrun
    cases hoperation : operation machine.store <;> rw [hoperation] at hrun <;> cases hrun
  · rfl
  · exact ⟨rfl, herror hoperation⟩

theorem parametric : Parametric (Heeding program settled) where
  of_pure hholds _ hheeds := ⟨fun _ ↦ rfl, hheeds, hholds⟩
  of_throw herror _ hheeds := ⟨fun _ ↦ rfl, hheeds, fun _ ↦ herror⟩
  bind := bind
  value _ := inspect _
  address _ := inspect _
  binding _ _ := inspect _
  register _ _ := change _
  extend _ _ _ := change _
  concat _ _ := change _
  extendAll _ _ := change _
  write _ _ _ := perform Store.write_error
  primitive _ := perform Store.primitive_error

/-- What is remembered follows its demand, and so does what is computed instead. -/
theorem memoized {settings' : Settings} (hmemoize : settings'.memoize = settings.memoize)
    {request : Request} {compute compute' : Evaluating Outcome}
    (hcompute : Heeding program settled compute compute'
      fun outcome ↦ program.Follows request.demand outcome.next) :
    Heeding program settled (Machine.memoized settings request compute)
      (Machine.memoized settings' request compute')
      fun outcome ↦ program.Follows request.demand outcome.next := by
  have hforget : Heeding program settled (modify Machine.synchronize : Evaluating PUnit)
      (modify Machine.synchronize) fun _ ↦ True := by
    refine fun machine hheeds ↦ ⟨fun _ ↦ rfl, ?_, trivial⟩
    unfold Machine.synchronize
    split
    · exact hheeds
    · exact fun request outcome hfound ↦ by simp at hfound
  have hget : Heeding program settled (get : Evaluating Machine) get
      fun machine ↦ machine.memo.Heeds program :=
    fun machine hheeds ↦ ⟨fun _ ↦ rfl, hheeds, hheeds⟩
  have hremember : ∀ outcome : Outcome, program.Follows request.demand outcome.next →
      Heeding program settled (modify (Machine.remember settings request outcome) : Evaluating PUnit)
        (modify (Machine.remember settings request outcome)) fun _ ↦ True := by
    refine fun outcome hfollows machine hheeds ↦ ⟨fun _ ↦ rfl, fun other found hfound ↦ ?_, trivial⟩
    obtain ⟨rfl, rfl⟩ | hfound := Machine.mem_of_remember hfound
    · exact hfollows
    · exact hheeds other found hfound
  rw [Machine.memoized_congr hmemoize]
  refine bind hforget fun _ _ ↦ bind hget fun machine hheeds ↦ ?_
  cases hremembered : machine.remembered? settings request with
  | some outcome =>
    refine parametric.of_pure (hheeds request outcome ?_)
    unfold Machine.remembered? at hremembered
    split at hremembered
    · exact hremembered
    · cases hremembered
  | none =>
    exact bind hcompute fun outcome hfollows ↦ bind (hremember outcome hfollows) fun _ _ ↦
      parametric.of_pure hfollows

/-- A match needs no more steps than the number of its demand says. -/
theorem within (hbuilt : program.Built) {evaluate evaluate' : Evaluator}
    (hevaluate : ∀ env expr demand, program.IsPattern demand →
      Heeding program True (evaluate env expr demand) (evaluate' env expr demand)
        fun outcome ↦ program.Follows demand outcome.next)
    {steps steps' : Nat} (node : NodeId) {demand : DemandId} (hdemand : program.IsPattern demand)
    (hsteps : demand.index < steps) (hsteps' : demand.index < steps') :
    Heeding program True (Matching.within program evaluate steps node demand)
      (Matching.within program evaluate' steps' node demand)
      fun outcome ↦ program.Follows demand outcome.next := by
  induction steps generalizing steps' node demand with
  | zero => exact absurd hsteps (Nat.not_lt_zero _)
  | succ steps ih =>
    obtain ⟨steps', rfl⟩ := Nat.exists_eq_add_one_of_ne_zero (Nat.ne_zero_of_lt hsteps')
    refine parametric.within_succ hbuilt.guides hdemand
      (fun env expr ↦ hevaluate env expr demand hdemand) (fun node following hfollows ↦ ?_) node
    -- The demand on a part was made before the one on the whole.
    obtain ⟨hpattern, hlt⟩ := hfollows hdemand following rfl
    exact ih node hpattern (Nat.lt_of_lt_of_le hlt (Nat.le_of_lt_succ hsteps))
      (Nat.lt_of_lt_of_le hlt (Nat.le_of_lt_succ hsteps'))

theorem matchNode (hbuilt : program.Built) {evaluate evaluate' : Evaluator}
    (hevaluate : ∀ env expr demand, program.IsPattern demand →
      Heeding program True (evaluate env expr demand) (evaluate' env expr demand)
        fun outcome ↦ program.Follows demand outcome.next)
    (reach reach' : Nat) (node : NodeId) (demand : DemandId) (hdemand : program.IsPattern demand) :
    Heeding program True (Matching.node program reach evaluate node demand)
      (Matching.node program reach' evaluate' node demand)
      fun outcome ↦ program.Follows demand outcome.next := by
  refine bind (inspect _) fun size _ ↦ within hbuilt hevaluate node hdemand ?_ ?_
  all_goals exact Nat.lt_add_right _ (Nat.lt_add_left size hdemand.2)

/-- Under a pattern nothing depends on how far a match may descend. -/
theorem nested (hbuilt : program.Built) (settings : Settings) (reach depth : Nat) (env : EnvId)
    (expr : ExprId) (demand : DemandId) (hdemand : program.IsPattern demand) :
    Heeding program True (Evaluation.nested program settings depth env expr demand)
      (Evaluation.nested program { settings with reach } depth env expr demand)
      fun outcome ↦ program.Follows demand outcome.next := by
  have hdepth : ({ settings with reach } : Settings).maxDepth = settings.maxDepth := rfl
  exact parametric.nested hbuilt.guides hdepth (memoized rfl)
    (fun hevaluate ↦ matchNode hbuilt hevaluate settings.reach reach) depth env expr demand hdemand

/-- Under any demand what is remembered stays in order. -/
theorem nested_any (hbuilt : program.Built) (settings : Settings) (depth : Nat) (env : EnvId)
    (expr : ExprId) (demand : DemandId) :
    Heeding program False (Evaluation.nested program settings depth env expr demand)
      (Evaluation.nested program settings depth env expr demand)
      fun outcome ↦ program.Follows demand outcome.next :=
  parametric.nested hbuilt.guides_any rfl (memoized rfl)
    (fun hevaluate ↦ parametric.matchNode hbuilt.guides_any (inspect _)
      (fun _ _ hheeds ↦ ⟨False.elim, hheeds, False.elim⟩) hevaluate settings.reach)
    depth env expr demand trivial

end Heeding

namespace Machine

variable {settings : Settings} {machine : Machine}

theorem heeding_perform (hbuilt : program.Built) (settings : Settings) (call : Call) :
    Heeding program False (call.perform program settings) (call.perform program settings)
      fun _ ↦ True := by
  cases call with
  | store operation =>
    refine fun machine hheeds ↦ ⟨False.elim, ?_⟩
    simp only [Call.perform, perform]
    cases operation machine.store with
    | ok result final => exact ⟨hheeds, trivial⟩
    | error error final => exact ⟨hheeds, False.elim⟩
  | openLibrary =>
    simp only [Call.perform, map_eq_pure_bind]
    exact Heeding.bind (Heeding.parametric.bindPrimitives .empty Primitive.all) fun _ _ ↦
      Heeding.parametric.of_pure trivial
  | evaluate env expr demand =>
    simp only [Call.perform, map_eq_pure_bind]
    exact Heeding.bind (Heeding.nested_any hbuilt settings settings.maxDepth env expr demand)
      fun _ _ ↦ Heeding.parametric.of_pure trivial

theorem heeds_answer (hbuilt : program.Built) (hheeds : machine.memo.Heeds program) (call : Call) :
    (machine.answer program settings call).2.memo.Heeds program := by
  have hcall := (heeding_perform hbuilt settings call machine hheeds).2
  unfold answer
  cases hrun : call.perform program settings machine with
  | ok result final =>
    rw [hrun] at hcall
    exact hcall.1
  | error error final =>
    rw [hrun] at hcall
    exact hcall.1

/-- Whatever has been asked of a machine, what it remembers is in order. -/
theorem heeds_after (hbuilt : program.Built) (hheeds : machine.memo.Heeds program)
    (calls : List Call) : (machine.after program settings calls).memo.Heeds program := by
  induction calls generalizing machine with
  | nil => exact hheeds
  | cons call calls ih => exact ih (heeds_answer hbuilt hheeds call)

end Machine

/-- Whatever a machine has been asked before and whatever its store holds, evaluation under a pattern
comes to an end: it gives up no descent, and comes to the same however far a match may descend. -/
theorem Evaluation.under_pattern_ends (hbuilt : program.Built) (settings : Settings) (store : Store)
    (calls : List Machine.Call) (env : EnvId) (expr : ExprId) {demand : DemandId}
    (hinterned : demand.index < program.demands.size) (hpattern : demand ≠ .everything) :
    let machine := Machine.after program settings { store } calls
    (∀ node final, under program settings env expr demand machine ≠
      .error (.bottomless node) final) ∧
    ∀ reach, under program { settings with reach } env expr demand machine =
      under program settings env expr demand machine := by
  intro machine
  have hheeds : machine.memo.Heeds program :=
    Machine.heeds_after hbuilt (fun request outcome hfound ↦ by simp at hfound) calls
  have hnested := fun reach ↦ Heeding.nested hbuilt settings reach settings.maxDepth env expr demand
    ⟨hpattern, hinterned⟩ machine hheeds
  refine ⟨fun node final hrun ↦ ?_, fun reach ↦ (hnested reach).1 trivial⟩
  have hend := (hnested 0).2
  unfold under at hrun
  rw [hrun] at hend
  exact Bool.noConfusion (hend.2 trivial)

/-- A list that is its own head and its own tail does no harm, even to a machine that was asked to
evaluate everything before. -/
theorem Evaluation.under_pattern_ends_cyclic : ∃ store : Store, store.Reachable ∧
    store.value? ⟨0⟩ = some (.constructor .consTag [⟨0⟩, ⟨0⟩]) ∧
    let machine := Machine.after Program.twoTexts {} { store } [.evaluate .empty ⟨0⟩ .everything]
    (∀ node final, under Program.twoTexts {} .empty ⟨0⟩ .function machine ≠
      .error (.bottomless node) final) ∧
    ∀ reach, under Program.twoTexts { reach } .empty ⟨0⟩ .function machine =
      under Program.twoTexts {} .empty ⟨0⟩ .function machine := by
  let cell : Value := .constructor .consTag [⟨0⟩, ⟨0⟩]
  have hpattern : Program.twoTexts.IsPattern .function :=
    Program.twoTexts_built.isPattern (by decide) (by decide)
  exact ⟨_, ⟨[.input cell], Store.run_input_empty cell⟩, rfl,
    under_pattern_ends Program.twoTexts_built {} _ _ .empty ⟨0⟩ hpattern.2 hpattern.1⟩

end Whence
