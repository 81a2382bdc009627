import Whence.Proofs.Machines
import Whence.Proofs.Replay

/-!
# Nested evaluation in company

Evaluation as a whole looks for the outcome in the memory and otherwise takes one step, with one level
of nesting less for the parts.  This module adds the memory to what is known about steps and names
two companions: a run that looks at the same store with another program, and one that remembers
outcomes where the first run evaluates again.
-/

namespace Whence

variable {program : Program} {machine : Machine} {settings settings' : Settings} {request : Request}
  {outcome : Outcome}

namespace Machine

theorem Consistent.synchronize (hconsistent : machine.Consistent program)
    (hrooted : machine.store.Rooted) : machine.synchronize = machine := by
  refine synchronize_of_revision ?_
  rw [hconsistent.revision, hrooted.lineage.2]

theorem Consistent.remembered (hconsistent : machine.Consistent program)
    (hremembered : machine.remembered? settings request = some outcome) :
    Reached program machine.store request.env request.expr request.demand outcome := by
  unfold remembered? at hremembered
  split at hremembered
  · exact hconsistent.memo hremembered
  · cases hremembered

theorem Consistent.remember (hconsistent : machine.Consistent program) (settings : Settings)
    (hreached : Reached program machine.store request.env request.expr request.demand outcome) :
    (Machine.remember settings request outcome machine).Consistent program where
  stocked primitive := by
    rw [store_remember]
    exact hconsistent.stocked primitive
  revision := by rw [revision_remember, hconsistent.revision]
  memo hfound := by
    rw [store_remember]
    obtain ⟨rfl, rfl⟩ | hfound := mem_of_remember hfound
    · exact hreached
    · exact hconsistent.memo hfound

end Machine

/-- How the memory of the second run is used beside that of the first one. -/
structure Companion.Remembers (companion : Companion program) (settings settings' : Settings)
    (evaluate : Evaluator) : Prop where
  synchronized : ∀ {machine machine'}, companion.tie machine machine' →
    machine.store.Rooted → machine.Consistent program → machine'.synchronize = machine'
  recalls : ∀ {machine machine' request outcome}, companion.tie machine machine' →
    machine.remembered? settings request = some outcome →
      machine'.remembered? settings' request = some outcome
  /-- What the second run alone remembers, the first one would come to without changing its store,
  and it may meet its limit where the second run does not. -/
  foresees : ∀ {machine machine' request outcome}, companion.tie machine machine' →
    Sound program machine.store → machine.Consistent program →
    machine.remembered? settings request = none → machine'.remembered? settings' request = some outcome →
      ¬companion.patient ∧
        Repeats program machine.store (evaluate request.env request.expr request.demand) outcome ∧
        ∀ {final : Machine}, final.store = machine.store →
          companion.tie (Machine.remember settings request outcome final) machine'
  learns : ∀ {machine machine' request outcome}, companion.tie machine machine' →
    machine.store.Rooted →
    Reached program machine.store request.env request.expr request.demand outcome →
      companion.tie (Machine.remember settings request outcome machine)
        (Machine.remember settings' request outcome machine')

theorem Tied.memoized {companion : Companion program} {evaluate evaluate' : Evaluator}
    (hmeets : Meets companion evaluate evaluate')
    (hremembers : companion.Remembers settings settings' evaluate) {store : Store} {env : EnvId}
    {expr : ExprId} {demand : DemandId} (henv : store.envs.Contains env) :
    Tied companion
      (Machine.memoized settings ⟨env, expr, demand⟩ (evaluate env expr demand))
      (Machine.memoized settings' ⟨env, expr, demand⟩ (evaluate' env expr demand)) store
      (Evaluates program store env expr demand)
      (fun error final ↦ Fails program final (.eval env expr demand) error) := by
  intro machine hstore hsound hconsistent
  subst hstore
  have hsynchronized := hconsistent.synchronize hsound.toRooted
  cases hremembered : machine.remembered? settings ⟨env, expr, demand⟩ with
  | some outcome =>
    rw [Machine.memoized_of_some _ hsynchronized hremembered]
    refine ⟨fun heq ↦ ?_, fun heq ↦ (by cases heq)⟩
    cases heq
    refine ⟨Tied.ends_refl rfl hsound hconsistent,
      ⟨hconsistent.remembered hremembered, .refl _ _⟩, fun _ machine' htie ↦ ?_⟩
    exact ⟨machine', Machine.memoized_of_some _
      (hremembers.synchronized htie hsound.toRooted hconsistent)
      (hremembers.recalls htie hremembered), htie⟩
  | none =>
    rw [Machine.memoized_of_none _ hsynchronized hremembered]
    obtain ⟨hok, herror⟩ := hmeets henv machine rfl hsound hconsistent
    cases hcompute : evaluate env expr demand machine with
    | ok outcome final =>
      refine ⟨fun heq ↦ ?_, fun heq ↦ (by cases heq)⟩
      cases heq
      obtain ⟨hends, hreached, hfollows⟩ := hok hcompute
      refine ⟨⟨?_, ?_, ?_, hends.consistent.remember settings hreached.1⟩, ?_,
        fun hagree machine' htie ↦ ?_⟩
      · rw [Machine.store_remember]
        exact hends.grows
      · rw [Machine.store_remember]
        exact hends.inputs
      · rw [Machine.store_remember]
        exact hends.sound
      · rw [Machine.store_remember]
        exact hreached
      · have hsynchronized' := hremembers.synchronized htie hsound.toRooted hconsistent
        cases hremembered' : machine'.remembered? settings' ⟨env, expr, demand⟩ with
        | none =>
          rw [Machine.store_remember] at hagree
          obtain ⟨final', hright, htie'⟩ := hfollows hagree htie
          refine ⟨_, ?_, hremembers.learns htie' hends.sound.toRooted hreached.1⟩
          rw [Machine.memoized_of_none _ hsynchronized' hremembered', hright]
        | some outcome' =>
          obtain ⟨-, hrepeats, htie'⟩ :=
            hremembers.foresees htie hsound hconsistent hremembered hremembered'
          rw [Machine.memoized_of_some _ hsynchronized' hremembered']
          obtain ⟨again, hstore, -, hrun | ⟨error, hrun, -⟩⟩ := hrepeats machine rfl hconsistent
          · rw [hcompute] at hrun
            cases hrun
            exact ⟨machine', rfl, htie' hstore⟩
          · rw [hcompute] at hrun
            cases hrun
    | error error final =>
      refine ⟨fun heq ↦ (by cases heq), fun heq ↦ ?_⟩
      cases heq
      obtain ⟨hends, hfail, hfollows⟩ := herror hcompute
      refine ⟨hends, hfail, fun hpursues hagree machine' htie ↦ ?_⟩
      have hsynchronized' := hremembers.synchronized htie hsound.toRooted hconsistent
      cases hremembered' : machine'.remembered? settings' ⟨env, expr, demand⟩ with
      | none =>
        obtain ⟨final', hright, htie'⟩ := hfollows hpursues hagree htie
        refine ⟨final', ?_, htie'⟩
        rw [Machine.memoized_of_none _ hsynchronized' hremembered', hright]
      | some outcome' =>
        obtain ⟨hpatient, hrepeats, -⟩ :=
          hremembers.foresees htie hsound hconsistent hremembered hremembered'
        obtain ⟨again, -, -, hrun | ⟨error', hrun, hexceeded⟩⟩ := hrepeats machine rfl hconsistent
        · rw [hcompute] at hrun
          cases hrun
        · rw [hcompute] at hrun
          cases hrun
          exact absurd (hpursues.2 (Error.isLimit_of_isExceeded hexceeded)) hpatient

/-! ## Nesting -/

namespace Evaluation

/-- What nested evaluation does when it does not remember. -/
def unremembered (program : Program) (settings : Settings) : Nat → Evaluator
  | 0 => fun _ _ _ ↦ throw (.depthExceeded settings.maxDepth)
  | depth + 1 => Rules.step program settings.reach (nested program settings depth)

theorem nested_eq (program : Program) (settings : Settings) (depth : Nat) (env : EnvId)
    (expr : ExprId) (demand : DemandId) :
    nested program settings depth env expr demand =
      Machine.memoized settings ⟨env, expr, demand⟩
        (unremembered program settings depth env expr demand) := by
  cases depth <;> rfl

/-- Evaluation forgets at once what is of no use. -/
theorem evaluate_synchronize (program : Program) (settings : Settings) (env : EnvId) (expr : ExprId)
    (machine : Machine) :
    evaluate program settings env expr machine.synchronize =
      evaluate program settings env expr machine := by
  simp only [evaluate, under, nested_eq, Bind.bind, EStateM.bind, Machine.memoized_synchronize]

end Evaluation

theorem Meets.nested (hregular : program.Regular) {companion : Companion program}
    (hreach : settings'.reach = settings.reach) (hdepth : settings'.maxDepth = settings.maxDepth)
    (hremembers : ∀ depth, companion.Remembers settings settings'
      (Evaluation.unremembered program settings depth)) (depth : Nat) :
    Meets companion (Evaluation.nested program settings depth)
      (Evaluation.nested companion.other settings' depth) := by
  induction depth with
  | zero =>
    intro store env expr demand henv
    have hstep : Meets companion (Evaluation.unremembered program settings 0)
        (Evaluation.unremembered companion.other settings' 0) :=
      fun _ ↦ Tied.of_limit rfl fun _ ↦ by rw [Evaluation.unremembered, hdepth]
    exact Tied.memoized hstep (hremembers 0) henv
  | succ depth ih =>
    intro store env expr demand henv
    have hstep : Meets companion
        (Rules.step program settings.reach (Evaluation.nested program settings depth))
        (Rules.step companion.other settings.reach
          (Evaluation.nested companion.other settings' depth)) :=
      Meets.step hregular ih settings.reach
    rw [Evaluation.nested, Evaluation.nested, hreach]
    exact Tied.memoized hstep (hremembers (depth + 1)) henv

/-- What evaluating an expression completely comes to. -/
abbrev EvaluatesFully (program : Program) (store : Store) (env : EnvId) (expr : ExprId)
    (node : NodeId) (final : Store) : Prop :=
  ∃ outcome, Evaluates program store env expr .everything outcome final ∧ outcome.node = node

theorem Tied.evaluate (companion : Companion program) (hregular : program.Regular)
    (hreach : settings'.reach = settings.reach) (hdepth : settings'.maxDepth = settings.maxDepth)
    (hremembers : ∀ depth, companion.Remembers settings settings'
      (Evaluation.unremembered program settings depth)) {store : Store} {env : EnvId}
    (henv : store.envs.Contains env) (expr : ExprId) :
    Tied companion (Evaluation.evaluate program settings env expr)
      (Evaluation.evaluate companion.other settings' env expr) store
      (EvaluatesFully program store env expr)
      (fun error final ↦ Fails program final (.eval env expr .everything) error) := by
  unfold Evaluation.evaluate Evaluation.under
  rw [hdepth]
  refine Tied.bind (Meets.nested hregular hreach hdepth hremembers settings.maxDepth henv) ?_
  intro outcome final _ _ hevaluates
  exact Tied.of_pure ⟨outcome, hevaluates, rfl⟩

theorem Reached.unique {store : Store} (hcanonical : store.envs.Canonical) {env : EnvId}
    {expr : ExprId} {demand : DemandId} {outcome' : Outcome}
    (hreached : Reached program store env expr demand outcome)
    (hreached' : Reached program store env expr demand outcome') : outcome = outcome' := by
  have hnode := hreached.lookup.symm.trans hreached'.lookup
  rw [Option.some.injEq] at hnode
  exact (hnode ▸ hreached.settled).unique hcanonical hreached'.settled

/-- What is remembered is what would be reached again. -/
theorem Repeats.memoized {store : Store} (hrooted : store.Rooted) (settings : Settings)
    (hreached : Reached program store request.env request.expr request.demand outcome)
    {compute : Evaluating Outcome} (hcompute : Repeats program store compute outcome) :
    Repeats program store (Machine.memoized settings request compute) outcome := by
  rintro machine rfl hconsistent
  have hsynchronized := hconsistent.synchronize hrooted
  cases hremembered : machine.remembered? settings request with
  | some outcome' =>
    have hreached' := hconsistent.remembered hremembered
    rw [Machine.memoized_of_some _ hsynchronized hremembered, hreached.unique hrooted.envs hreached']
    exact ⟨machine, rfl, hconsistent, .inl rfl⟩
  | none =>
    rw [Machine.memoized_of_none _ hsynchronized hremembered]
    obtain ⟨final, hstore, hconsistent', hrun | ⟨error, hrun, hexceeded⟩⟩ :=
      hcompute machine rfl hconsistent
    · rw [hrun]
      refine ⟨_, ?_, hconsistent'.remember settings (hstore ▸ hreached), .inl rfl⟩
      rw [Machine.store_remember, hstore]
    · rw [hrun]
      exact ⟨final, hstore, hconsistent', .inr ⟨error, rfl, hexceeded⟩⟩

/-- Nested evaluation replays what has been reached, whether it remembers or not. -/
theorem Replays.unremembered (hregular : program.Regular) (hpatterned : program.Patterned)
    (settings : Settings) (depth : Nat) :
    Replays program (Evaluation.unremembered program settings depth) := by
  induction depth with
  | zero => exact fun _ _ ↦ Repeats.of_exceeded rfl _
  | succ depth ih =>
    refine Replays.step hregular hpatterned (fun hsound hreached ↦ ?_) settings.reach
    rw [Evaluation.nested_eq]
    exact Repeats.memoized hsound.toRooted settings hreached (ih hsound hreached)

/-- What has been evaluated completely is found again. -/
theorem Repeats.evaluate (hregular : program.Regular) (hpatterned : program.Patterned)
    (settings : Settings) {store : Store} (hsound : Sound program store) {env : EnvId}
    {expr : ExprId} (hreached : Reached program store env expr .everything outcome) :
    Repeats program store (Evaluation.evaluate program settings env expr) outcome.node := by
  unfold Evaluation.evaluate Evaluation.under
  rw [Evaluation.nested_eq]
  exact bind (memoized hsound.toRooted settings hreached
    (Replays.unremembered hregular hpatterned settings _ hsound hreached)) (of_pure _)

/-! ## Two companions -/

/-- The programs have the same expressions where something is known. -/
structure Program.AgreesOn (program other : Program) (store : Store) : Prop where
  value : ∀ {node env expr value}, store.address node = .evaluation env expr →
    store.value? node = some value → other.expr expr = program.expr expr
  closure : ∀ {node closure}, store.value? node = some (.closure closure) →
    other.expr closure.function = program.expr closure.function

namespace Companion

/-- The run of another program on the same machine. -/
def sharing (other : Program) (hother : other = { program with exprs := other.exprs }) :
    Companion program where
  other := other
  tie := Eq
  agree := program.AgreesOn other
  strict := other.exprs = program.exprs
  patient := True
  other_eq := hother
  agree_of_grows {store store'} hgrows hagree := by
    refine ⟨fun {node env expr value} haddress hvalue ↦ ?_,
      fun hvalue ↦ hagree.closure (hgrows.value hvalue)⟩
    rw [← hgrows.address_eq (Store.contains_of_value hvalue)] at haddress
    exact hagree.value haddress (hgrows.value hvalue)
  expr_of_value _ hagree haddress hvalue := hagree.value haddress hvalue
  expr_of_closure _ hagree hvalue := hagree.closure hvalue
  exprs_of_strict hstrict := hstrict
  alike htie := by
    subst htie
    exact ⟨rfl, fun _ ↦ rfl, rfl, rfl, rfl⟩
  value htie hvalue := htie ▸ hvalue
  delayed htie _ _ _ _ hvalue _ := htie ▸ hvalue
  partially htie _ _ _ hvalue := htie ▸ hvalue
  allot htie _ := by rw [htie]
  withEnvs htie _ := by rw [htie]
  write {machine machine' env expr explanation value node final} htie _ hwrite _ _ _ := by
    subst htie
    exact ⟨final, hwrite, rfl⟩

theorem sharing_remembers {other : Program} {hother : other = { program with exprs := other.exprs }}
    (settings : Settings) (evaluate : Evaluator) :
    (sharing other hother).Remembers settings settings evaluate where
  synchronized htie hrooted hconsistent := by
    cases htie
    exact hconsistent.synchronize hrooted
  recalls htie hremembered := by
    cases htie
    exact hremembered
  foresees htie _ _ hremembered hremembered' := by
    cases htie
    rw [hremembered] at hremembered'
    cases hremembered'
  learns htie _ _ := by
    cases htie
    rfl

/-- The run of the same program on the same store that remembers the outcomes which the store has
seen at some time. -/
def remembering (program : Program) : Companion program := Twin.companion {
  tie machine machine' := machine'.store = machine.store ∧ machine'.memo.revision = .root ∧
    ∀ {request : Request} {outcome : Outcome}, machine'.memo.outcomes[request]? = some outcome →
      ∃ earlier : Store, earlier.Grows machine.store ∧ earlier.envs.Canonical ∧
        Reached program earlier request.env request.expr request.demand outcome
  patient := False
  alike := by
    rintro ⟨store, memo⟩ ⟨store', memo'⟩ ⟨hstore, -, -⟩
    cases hstore
    exact ⟨rfl, fun _ ↦ rfl, rfl, rfl, rfl⟩
  value?_eq htie _ := by rw [htie.1]
  allot := by
    rintro machine machine' address ⟨hstore, hrevision, hmemo⟩ hlookup
    refine ⟨by rw [hstore], hrevision, fun hfound ↦ ?_⟩
    obtain ⟨earlier, hgrows, hreached⟩ := hmemo hfound
    exact ⟨earlier, hgrows.trans (Store.allot_grows hlookup), hreached⟩
  withEnvs := by
    rintro machine machine' envs ⟨hstore, hrevision, hmemo⟩ henvs
    refine ⟨by rw [hstore], hrevision, fun hfound ↦ ?_⟩
    obtain ⟨earlier, hgrows, hreached⟩ := hmemo hfound
    exact ⟨earlier, hgrows.trans (Store.withEnvs_grows henvs), hreached⟩
  write := by
    rintro machine machine' env expr explanation value node final ⟨hstore, hrevision, hmemo⟩ -
      hwrite hgrows
    refine ⟨final, by rw [hstore, hwrite], rfl, hrevision, fun hfound ↦ ?_⟩
    obtain ⟨earlier, hgrows', hreached⟩ := hmemo hfound
    exact ⟨earlier, hgrows'.trans hgrows, hreached⟩ }

theorem remembering_remembers (hmemoize : settings.memoize = false) {evaluate : Evaluator}
    (hreplays : Replays program evaluate) (settings' : Settings) :
    (remembering program).Remembers settings settings' evaluate where
  synchronized := by
    rintro machine machine' ⟨hstore, hrevision, -⟩ hrooted -
    refine Machine.synchronize_of_revision ?_
    rw [hrevision, hstore, hrooted.lineage.2]
  recalls _ hremembered := by
    rw [Machine.remembered?_of_off hmemoize] at hremembered
    cases hremembered
  foresees := by
    rintro machine machine' request outcome htie hsound hconsistent - hremembered
    refine ⟨id, hreplays hsound ?_, fun {final} hstore ↦ ?_⟩
    swap
    · rw [Machine.remember_of_off hmemoize]
      exact ⟨htie.1.trans hstore.symm, htie.2.1, fun hfound ↦ hstore ▸ htie.2.2 hfound⟩
    rw [Machine.remembered?] at hremembered
    split at hremembered
    · obtain ⟨earlier, hgrows, hcanonical, hreached⟩ := htie.2.2 hremembered
      exact hreached.grow hcanonical hgrows
    · cases hremembered
  learns := by
    rintro machine machine' request outcome ⟨hstore, hrevision, hmemo⟩ hrooted hreached
    rw [Machine.remember_of_off hmemoize]
    refine ⟨by rw [Machine.store_remember, hstore], by rw [Machine.revision_remember, hrevision],
      fun hfound ↦ ?_⟩
    obtain ⟨rfl, rfl⟩ | hfound := Machine.mem_of_remember hfound
    · exact ⟨machine.store, .refl _, hrooted.envs, hreached⟩
    · exact hmemo hfound

end Companion

end Whence
