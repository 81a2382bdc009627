import Whence.Proofs.Machines
import Whence.Proofs.Parametricity
import Whence.Proofs.Stopping

/-!
# The depth limit

Evaluations are nested as deep as the limit allows.  A run that never meets the limit is the same
under every higher one.  The depth that is left is handed down here; a counter that goes up before
the rules are applied and down afterwards does the same, since it is back where it was whenever an
evaluation ends, and so a failure leaves the next evaluation as much room as it had before.
-/

namespace Whence

variable {α β : Type} {program : Program} {settings : Settings}

/-- The two computations do the same wherever the first one does not meet its limit. -/
def Unlimited (computation computation' : Evaluating α) (holds : α → Prop) : Prop :=
  ∀ machine, match computation machine with
    | .ok result _ => holds result ∧ computation' machine = computation machine
    | .error error _ => error.isExceeded = true ∨ computation' machine = computation machine

namespace Unlimited

theorem of_same (computation : Evaluating α) :
    Unlimited computation computation fun _ ↦ True := by
  intro machine
  cases computation machine with
  | ok result final => exact ⟨trivial, rfl⟩
  | error error final => exact .inr rfl

theorem of_exceeded (limit : Nat) (computation' : Evaluating α) {holds : α → Prop} :
    Unlimited (throw (.depthExceeded limit)) computation' holds :=
  fun _ ↦ .inl rfl

theorem bind {computation computation' : Evaluating α} {next next' : α → Evaluating β}
    {between : α → Prop} {holds : β → Prop} (hfirst : Unlimited computation computation' between)
    (hnext : ∀ result, between result → Unlimited (next result) (next' result) holds) :
    Unlimited (computation >>= next) (computation' >>= next') holds := by
  intro machine
  have hmachine := hfirst machine
  simp only [Bind.bind, EStateM.bind]
  cases hrun : computation machine with
  | ok result middle =>
    rw [hrun] at hmachine
    rw [hmachine.2]
    exact hnext result hmachine.1 middle
  | error error final =>
    rw [hrun] at hmachine
    exact hmachine.imp_right fun hsame ↦ by rw [hsame]

theorem parametric : Parametric @Unlimited where
  of_pure hholds _ := ⟨hholds, rfl⟩
  of_throw _ _ := .inr rfl
  bind := bind
  value _ := of_same _
  address _ := of_same _
  binding _ _ := of_same _
  register _ _ := of_same _
  extend _ _ _ := of_same _
  concat _ _ := of_same _
  extendAll _ _ := of_same _
  write _ _ _ := of_same _
  primitive _ := of_same _

theorem memoized {compute compute' : Evaluating Outcome} {request : Request}
    (hcompute : Unlimited compute compute' fun _ ↦ True) (limit : Nat) :
    Unlimited (Machine.memoized settings request compute)
      (Machine.memoized { settings with maxDepth := limit } request compute') fun _ ↦ True := by
  have hsame : Machine.memoized { settings with maxDepth := limit } request compute' =
      Machine.memoized settings request compute' := Machine.memoized_congr rfl request compute'
  rw [hsame]
  refine bind (of_same _) fun _ _ ↦ bind (of_same get) fun machine _ ↦ ?_
  cases machine.remembered? settings request with
  | some outcome => exact of_same _
  | none => exact bind hcompute fun outcome _ ↦ of_same _

/-- More room to nest is noticed only by evaluations that need it. -/
theorem nested {limit depth depth' : Nat} (hdepth : depth ≤ depth') (env : EnvId) (expr : ExprId)
    (demand : DemandId) :
    Unlimited (Evaluation.nested program settings depth env expr demand)
      (Evaluation.nested program { settings with maxDepth := limit } depth' env expr demand)
      fun _ ↦ True := by
  induction depth generalizing depth' env expr demand with
  | zero =>
    -- The first evaluation may recall an outcome, and the second one recalls it too.
    cases depth' with
    | zero => exact memoized (of_exceeded _ _) limit
    | succ depth' => exact memoized (of_exceeded _ _) limit
  | succ depth ih =>
    obtain ⟨depth', rfl⟩ := Nat.exists_eq_add_of_le' hdepth
    have hnested := fun env expr demand (_ : True) ↦
      ih (Nat.le_of_succ_le_succ hdepth) env expr demand
    have hmatch := parametric.matchNode (.trivial program) (of_same _) (fun _ _ ↦ .inr rfl) hnested
      settings.reach
    exact memoized (parametric.step (.trivial program) hnested hmatch trivial env expr) limit

theorem perform (program : Program) {limit : Nat} (hlimit : settings.maxDepth ≤ limit)
    (call : Machine.Call) :
    Unlimited (call.perform program settings)
      (call.perform program { settings with maxDepth := limit }) fun _ ↦ True := by
  cases call with
  | store operation => exact of_same _
  | openLibrary => exact of_same _
  | evaluate env expr demand =>
    simp only [Machine.Call.perform, map_eq_pure_bind]
    exact bind (nested hlimit env expr demand) fun _ _ ↦ of_same _

end Unlimited

/-! ## Counting -/

/-- What a machine remembers, with a counter of the evaluations that are under way. -/
structure Counting where
  memo : Memo
  depth : Nat

namespace Machine

/-- The machine with a counter. -/
def tally (machine : Machine) (depth : Nat) : Machine Counting := ⟨machine.store, machine.memo, depth⟩

/-- Where the counter stands. -/
def depth (machine : Machine Counting) : Nat := machine.memo.depth

/-- The machine without the counter. -/
def plain (machine : Machine Counting) : Machine := ⟨machine.store, machine.memo.memo⟩

@[simp] theorem depth_tally (machine : Machine) (depth : Nat) :
    Machine.depth (machine.tally depth) = depth := rfl

@[simp] theorem plain_tally (machine : Machine) (depth : Nat) :
    plain (machine.tally depth) = machine := rfl

end Machine

/-- The end of a run, with a counter in the machine. -/
def tallied (depth : Nat) : EStateM.Result Error Machine α → EStateM.Result Error (Machine Counting) α
  | .ok result final => .ok result (final.tally depth)
  | .error error final => .error error (final.tally depth)

namespace Evaluation

open Machine

/-- Works on the machine apart from its counter. -/
def aside (computation : Evaluating α) : EvaluatingBeside Counting α := fun machine ↦
  tallied machine.depth (computation machine.plain)

/-- Counts one up before the computation and one down after it, whether it succeeds or fails. -/
def inside (computation : EvaluatingBeside Counting α) : EvaluatingBeside Counting α :=
  fun machine ↦
    match computation (machine.plain.tally (machine.depth + 1)) with
    | .ok result final => .ok result (final.plain.tally (final.depth - 1))
    | .error error final => .error error (final.plain.tally (final.depth - 1))

/-- Does a computation inside of those under way, unless these are as many as the limit allows. -/
def limited (settings : Settings) (computation : EvaluatingBeside Counting α) :
    EvaluatingBeside Counting α := do
  if settings.maxDepth ≤ (← get).depth then throw (.depthExceeded settings.maxDepth)
  else inside computation

/-- Evaluates with a counter of the evaluations that are under way.  The first argument is spent with
the recursion alone; the counter decides whether the limit is met. -/
def counted (program : Program) (settings : Settings) : Nat → EvaluatorBeside Counting
  | 0, _, _, _ => throw (.depthExceeded settings.maxDepth)
  | fuel + 1, env, expr, demand => do
    let request : Request := ⟨env, expr, demand⟩
    aside (modify synchronize)
    match (← aside get).remembered? settings request with
    | some outcome => pure outcome
    | none =>
      let outcome ← limited settings
        (Rules.step program settings.reach (counted program settings fuel) env expr demand)
      aside (modify (remember settings request outcome))
      pure outcome

end Evaluation

/-- The second computation does with a counter what the first one does without, and leaves the
counter where it was. -/
def Counts (depth : Nat) (computation : Evaluating α) (computation' : EvaluatingBeside Counting α)
    (holds : α → Prop) : Prop :=
  ∀ machine : Machine, computation' (machine.tally depth) = tallied depth (computation machine) ∧
    match computation machine with
    | .ok result _ => holds result
    | .error _ _ => True

namespace Counts

variable {depth : Nat}

theorem bind {computation : Evaluating α} {computation' : EvaluatingBeside Counting α}
    {next : α → Evaluating β} {next' : α → EvaluatingBeside Counting β}
    {between : α → Prop} {holds : β → Prop} (hfirst : Counts depth computation computation' between)
    (hnext : ∀ result, between result → Counts depth (next result) (next' result) holds) :
    Counts depth (computation >>= next) (computation' >>= next') holds := by
  intro machine
  obtain ⟨hsame, hresult⟩ := hfirst machine
  simp only [Bind.bind, EStateM.bind, hsame]
  cases hrun : computation machine with
  | ok result middle =>
    rw [hrun] at hresult
    exact hnext result hresult middle
  | error error final => exact ⟨rfl, trivial⟩

theorem inspect (read : Store → α) :
    Counts depth (Machine.inspect read) (Machine.inspect read) fun _ ↦ True :=
  fun _ ↦ ⟨rfl, trivial⟩

theorem change (operation : Store → α × Store) :
    Counts depth (Machine.change operation) (Machine.change operation) fun _ ↦ True :=
  fun _ ↦ ⟨rfl, trivial⟩

theorem perform (operation : Storing α) :
    Counts depth (Machine.perform operation) (Machine.perform operation) fun _ ↦ True := by
  intro machine
  simp only [Machine.perform, Machine.tally]
  cases operation machine.store with
  | ok result final => exact ⟨rfl, trivial⟩
  | error error final => exact ⟨rfl, trivial⟩

theorem parametric (depth : Nat) : Parametric (Counts depth) where
  of_pure hholds _ := ⟨rfl, hholds⟩
  of_throw _ _ := ⟨rfl, trivial⟩
  bind := bind
  value _ := inspect _
  address _ := inspect _
  binding _ _ := inspect _
  register _ _ := change _
  extend _ _ _ := change _
  concat _ _ := change _
  extendAll _ _ := change _
  write _ _ _ := perform _
  primitive _ := perform _

theorem aside (computation : Evaluating α) :
    Counts depth computation (Evaluation.aside computation) fun _ ↦ True := by
  intro machine
  refine ⟨by simp [Evaluation.aside], ?_⟩
  cases computation machine <;> trivial

theorem of_exceeded (hlimit : settings.maxDepth ≤ depth)
    (computation : EvaluatingBeside Counting α) :
    Counts depth (throw (.depthExceeded settings.maxDepth))
      (Evaluation.limited settings computation) fun _ ↦ True := by
  intro machine
  have hrun : Evaluation.limited settings computation (machine.tally depth) =
      (throw (.depthExceeded settings.maxDepth) : EvaluatingBeside Counting α)
        (machine.tally depth) := by
    rw [Evaluation.limited, run_get_bind, Machine.depth_tally, if_pos hlimit]
  exact ⟨hrun, trivial⟩

/-- The counter goes down from where the computation has left it. -/
theorem limited (hlimit : depth < settings.maxDepth) {computation : Evaluating α}
    {computation' : EvaluatingBeside Counting α}
    (hcomputation : Counts (depth + 1) computation computation' fun _ ↦ True) :
    Counts depth computation (Evaluation.limited settings computation') fun _ ↦ True := by
  intro machine
  obtain ⟨hsame, hresult⟩ := hcomputation machine
  have hrun : Evaluation.limited settings computation' (machine.tally depth) =
      Evaluation.inside computation' (machine.tally depth) := by
    rw [Evaluation.limited, run_get_bind, Machine.depth_tally, if_neg (Nat.not_le.2 hlimit)]
  refine ⟨?_, hresult⟩
  simp only [hrun, Evaluation.inside, Machine.plain_tally, Machine.depth_tally, hsame]
  cases computation machine <;> simp [tallied]

/-- Evaluation with a counter does what evaluation with the rest of the depth does. -/
theorem counted (program : Program) {fuel : Nat} (hfuel : settings.maxDepth - depth < fuel) (env : EnvId)
    (expr : ExprId) (demand : DemandId) :
    Counts depth (Evaluation.nested program settings (settings.maxDepth - depth) env expr demand)
      (Evaluation.counted program settings fuel env expr demand) fun _ ↦ True := by
  induction fuel generalizing depth env expr demand with
  | zero => exact absurd hfuel (Nat.not_lt_zero _)
  | succ fuel ih =>
    have hmemoized : ∀ {compute : Evaluating Outcome},
        Counts depth compute (Evaluation.limited settings (Rules.step program settings.reach
          (Evaluation.counted program settings fuel) env expr demand)) (fun _ ↦ True) →
        Counts depth (Machine.memoized settings ⟨env, expr, demand⟩ compute)
          (Evaluation.counted program settings (fuel + 1) env expr demand) fun _ ↦ True := by
      intro compute hcompute
      refine bind (aside _) fun _ _ ↦ bind (aside get) fun machine _ ↦ ?_
      cases machine.remembered? settings ⟨env, expr, demand⟩ with
      | some outcome => exact (parametric depth).of_pure trivial
      | none =>
        exact bind hcompute fun outcome _ ↦ bind (aside _) fun _ _ ↦
          (parametric depth).of_pure trivial
    by_cases hlimit : settings.maxDepth ≤ depth
    · rw [Nat.sub_eq_zero_of_le hlimit]
      exact hmemoized (of_exceeded hlimit _)
    · have hrest : settings.maxDepth - depth = settings.maxDepth - (depth + 1) + 1 := by omega
      have hnested := fun env expr demand (_ : True) ↦
        ih (show settings.maxDepth - (depth + 1) < fuel by omega) env expr demand
      have hmatch := (parametric (depth + 1)).matchNode (.trivial program) (inspect _)
        (fun _ _ ↦ ⟨rfl, trivial⟩) hnested settings.reach
      rw [hrest]
      exact hmemoized (limited (Nat.not_le.1 hlimit)
        ((parametric (depth + 1)).step (.trivial program) hnested hmatch trivial env expr))

end Counts

namespace Machine

theorem answer_of_within {machine : Machine} {call : Call} {limit : Nat}
    (hlimit : settings.maxDepth ≤ limit)
    (hwithin : ∀ depth, (machine.answer program settings call).1 ≠ .error (.depthExceeded depth)) :
    machine.answer program { settings with maxDepth := limit } call =
      machine.answer program settings call := by
  have hcall := Unlimited.perform program hlimit call machine
  unfold answer at hwithin ⊢
  cases hrun : call.perform program settings machine with
  | ok result final =>
    rw [hrun] at hcall
    rw [hcall.2]
  | error error final =>
    rw [hrun] at hcall hwithin
    obtain hexceeded | hsame := hcall
    · cases error with
      | depthExceeded depth => exact absurd rfl (hwithin depth)
      | _ => cases hexceeded
    · rw [hsame]

theorem play_of_within {machine : Machine} {calls : List Call} {limit : Nat}
    (hlimit : settings.maxDepth ≤ limit)
    (hwithin : ∀ entry ∈ machine.play program settings calls, ∀ depth,
      entry.1 ≠ .error (.depthExceeded depth)) :
    machine.play program { settings with maxDepth := limit } calls =
      machine.play program settings calls := by
  induction calls generalizing machine with
  | nil => rfl
  | cons call calls ih =>
    have hanswer := answer_of_within hlimit (hwithin _ List.mem_cons_self)
    simp only [play, hanswer]
    rw [ih fun entry hentry ↦ hwithin entry (List.mem_cons_of_mem _ hentry)]

/-- A run that never meets the depth limit is the same under every higher limit, with the same
answers and the same machine after each call.  And when an evaluation that counts ends, in whatever
way and with whatever count it began, it has come to what evaluation with the rest of the depth comes
to, and the counter is back where it was. -/
theorem play_limit_raised (program : Program) (settings : Settings) (machine : Machine) :
    (∀ (calls : List Call) (limit : Nat), settings.maxDepth ≤ limit →
      (∀ entry ∈ machine.play program settings calls, ∀ depth,
        entry.1 ≠ .error (.depthExceeded depth)) →
      machine.play program { settings with maxDepth := limit } calls =
        machine.play program settings calls) ∧
    ∀ (depth fuel : Nat) (env : EnvId) (expr : ExprId) (demand : DemandId),
      settings.maxDepth < fuel →
      Evaluation.counted program settings fuel env expr demand (machine.tally depth) =
        tallied depth
          (Evaluation.nested program settings (settings.maxDepth - depth) env expr demand machine) ∧
      (stateAfter (Evaluation.counted program settings fuel env expr demand)
        (machine.tally depth)).depth = depth := by
  refine ⟨fun calls limit hlimit hwithin ↦ play_of_within hlimit hwithin,
    fun depth fuel env expr demand hfuel ↦ ?_⟩
  have hleft : settings.maxDepth - depth < fuel := Nat.lt_of_le_of_lt (Nat.sub_le _ depth) hfuel
  have hcounted := (Counts.counted program hleft env expr demand machine).1
  refine ⟨hcounted, ?_⟩
  rw [stateAfter, hcounted]
  cases Evaluation.nested program settings (settings.maxDepth - depth) env expr demand machine with
  | ok outcome final => exact depth_tally final depth
  | error error final => exact depth_tally final depth

/-- A name that is bound nowhere is met in two revisions, with room for one evaluation and with room
for five, and the failure leaves the counter where it was. -/
theorem play_limit_raised_unbound :
    let program : Program := { exprs := #[.var ⟨0⟩] }
    let settings : Settings := { maxDepth := 1, memoize := false }
    let calls : List Call :=
      [.evaluate .empty ⟨0⟩ .everything,
        .store (modifyGet fun store ↦ (.revision store.spawn.1, store.spawn.2)),
        .evaluate .empty ⟨0⟩ .everything]
    (play program settings {} calls).map Prod.fst =
      [.error (.nameNotFound "<unknown>"), .ok (.revision ⟨1⟩), .error (.nameNotFound "<unknown>")] ∧
    play program { settings with maxDepth := 5 } {} calls = play program settings {} calls ∧
    (stateAfter (Evaluation.counted program settings 2 .empty ⟨0⟩ .everything)
      (({} : Machine).tally 0)).depth = 0 := by
  intro program settings calls
  have hanswers : (play program settings {} calls).map Prod.fst =
      [.error (.nameNotFound "<unknown>"), .ok (.revision ⟨1⟩),
        .error (.nameNotFound "<unknown>")] := rfl
  obtain ⟨hraised, hcounted⟩ := play_limit_raised program settings {}
  refine ⟨hanswers, hraised calls 5 (by decide) fun entry hentry depth ↦ ?_,
    (hcounted 0 2 _ _ _ (by decide)).2⟩
  have hanswer := List.mem_map_of_mem (f := Prod.fst) hentry
  rw [hanswers] at hanswer
  simp only [List.mem_cons, List.not_mem_nil, or_false] at hanswer
  obtain hanswer | hanswer | hanswer := hanswer <;> simp [hanswer]

end Machine

end Whence
