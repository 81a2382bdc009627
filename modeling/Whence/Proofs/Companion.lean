import Whence.Evaluation.Basic
import Whence.Proofs.Coverage
import Whence.Proofs.Derivation.Failure

/-!
# Evaluating in company

Many facts about evaluation compare two runs that do the same things: with and without a memory of
outcomes, on two programs that differ where nothing looks, before and after an edit.  A `Companion`
says how the machine of the second run is tied to that of the first one, and `Tied` that the second
run follows the first one step by step.  The first run is described as well, so that one walk
through the rules of evaluation serves all comparisons; a run is its own companion.
-/

namespace Whence

/-- The two stores differ in what they know at most. -/
structure Store.Alike (store store' : Store) : Prop where
  size : store'.size = store.size
  address : ∀ node, store'.address node = store.address node
  ids : store'.ids = store.ids
  envs : store'.envs = store.envs
  library : store'.library = store.library

namespace Store.Alike

variable {store store' store'' : Store} {node : NodeId}

theorem symm (halike : store.Alike store') : store'.Alike store :=
  ⟨halike.size.symm, fun node ↦ (halike.address node).symm, halike.ids.symm, halike.envs.symm,
    halike.library.symm⟩

theorem trans (hfirst : store.Alike store') (hsecond : store'.Alike store'') : store.Alike store'' :=
  ⟨hsecond.size.trans hfirst.size, fun node ↦ (hsecond.address node).trans (hfirst.address node),
    hsecond.ids.trans hfirst.ids, hsecond.envs.trans hfirst.envs,
    hsecond.library.trans hfirst.library⟩

theorem contains (halike : store.Alike store') : store'.Contains node ↔ store.Contains node := by
  rw [Contains, Contains, halike.size]

theorem lookup? (halike : store.Alike store') (address : Address) :
    store'.lookup? address = store.lookup? address := by
  rw [Store.lookup?, Store.lookup?, halike.ids]

theorem within (halike : store.Alike store') {value : Value} :
    value.Within store' ↔ value.Within store := by
  unfold Value.Within
  simp only [halike.envs, halike.contains]

/-- A store that is alike has grown if it knows as much. -/
theorem grows (halike : store.Alike store')
    (hknowledge : ∀ {node knowledge}, store.knowledge? node = some knowledge →
      store'.knowledge? node = some knowledge) : store.Grows store' where
  size_le := Nat.le_of_eq halike.size.symm
  address_eq _ := halike.address _
  lookup hlookup := by rwa [halike.lookup?]
  knowledge := hknowledge
  envs := halike.envs ▸ .refl _
  library := halike.library

end Store.Alike

theorem Store.alike_setHistory {store : Store} {node : NodeId} (hnode : store.Contains node)
    (history : History) : store.Alike (store.setHistory node history) :=
  ⟨size_setHistory _ _ _, address_setHistory hnode _, rfl, rfl, rfl⟩

/-- No input has come in between. -/
def Store.KeepsInputs (store store' : Store) : Prop :=
  ∀ node source, store'.Contains node → store'.address node = .input source → store.Contains node

theorem Store.KeepsInputs.refl (store : Store) : store.KeepsInputs store :=
  fun _ _ hnode _ ↦ hnode

theorem Store.KeepsInputs.trans {store store' store'' : Store} (hfirst : store.KeepsInputs store')
    (hgrows : store'.Grows store'') (hsecond : store'.KeepsInputs store'') :
    store.KeepsInputs store'' := by
  intro node source hnode haddress
  have hnode' := hsecond node source hnode haddress
  rw [hgrows.address_eq hnode'] at haddress
  exact hfirst node source hnode' haddress

/-- Someone holds the node without having evaluated it: an environment binds it, or it is an argument
of a constructor. -/
def Store.Exposes (store : Store) (node : NodeId) : Prop :=
  (∃ env name, (name, Binding.node node) ∈ store.envs.entries env) ∨
    ∃ holder tag args, store.value? holder = some (.constructor tag args) ∧ node ∈ args

theorem Store.Exposes.grow {store store' : Store} (hgrows : store.Grows store') {node : NodeId}
    (hexposes : store.Exposes node) : store'.Exposes node := by
  obtain ⟨env, name, hmem⟩ | ⟨holder, tag, args, hvalue, harg⟩ := hexposes
  · refine .inl ⟨env, name, ?_⟩
    rwa [hgrows.envs.entries_eq (Environments.contains_of_mem hmem)]
  · exact .inr ⟨holder, tag, args, hgrows.value hvalue, harg⟩

theorem Store.Exposes.contains {store : Store} (htidy : Tidy program store) {node : NodeId}
    (hexposes : store.Exposes node) : store.Contains node := by
  obtain ⟨env, name, hmem⟩ | ⟨holder, tag, args, hvalue, harg⟩ := hexposes
  · exact htidy.bound hmem
  · exact htidy.within hvalue node harg

/-- A node with a value without parts exposes nothing. -/
theorem Store.Exposes.of_others {store final : Store} {node other : NodeId} {value : Value}
    (henvs : final.envs = store.envs) (hvalue : final.value? node = some value)
    (hparts : value.parts = [])
    (hothers : ∀ {holder}, holder ≠ node → final.knowledge? holder = store.knowledge? holder)
    (hexposes : final.Exposes other) : store.Exposes other := by
  obtain ⟨env, name, hmem⟩ | ⟨holder, tag, args, hholder, harg⟩ := hexposes
  · exact .inl ⟨env, name, henvs ▸ hmem⟩
  · refine .inr ⟨holder, tag, args, ?_, harg⟩
    have hother : holder ≠ node := by
      rintro rfl
      cases hvalue.symm.trans hholder
      cases (hparts : args = [])
      cases harg
    rwa [Store.value?_eq, hothers hother, ← Store.value?_eq] at hholder

/-- A second run beside one of `program`. -/
structure Companion (program : Program) where
  /-- The program of the second run. -/
  other : Program
  /-- How the machines of the two runs are related at corresponding steps. -/
  tie : Machine → Machine → Prop
  /-- What the second run needs of a store that the first run has reached. -/
  agree : Store → Prop
  /-- Whether the second run follows into failures. -/
  strict : Prop
  /-- Whether it follows also where the first run gives up. -/
  patient : Prop
  other_eq : other = { program with exprs := other.exprs }
  agree_of_grows : ∀ {store store'}, store.Grows store' → agree store' → agree store
  expr_of_value : ∀ {store node env expr value}, Tidy program store → agree store →
    store.address node = .evaluation env expr → store.value? node = some value →
      other.expr expr = program.expr expr
  expr_of_closure : ∀ {store node closure}, Tidy program store → agree store →
    store.value? node = some (.closure closure) →
      other.expr closure.function = program.expr closure.function
  exprs_of_strict : strict → other.exprs = program.exprs
  alike : ∀ {machine machine'}, tie machine machine' → machine.store.Alike machine'.store
  value : ∀ {machine machine' node value}, tie machine machine' →
    machine.store.value? node = some value → machine'.store.value? node = some value
  /-- The second run has not yet evaluated what the first one evaluates because someone holds it. -/
  delayed : ∀ {machine machine' final node}, tie machine machine' → Tidy program machine.store →
    machine.store.Grows final → agree final → machine.store.Exposes node →
    machine.store.value? node = none → (strict ∨ ∃ value, final.value? node = some value) →
      machine'.store.value? node = none
  partially : ∀ {machine machine' holder op first}, tie machine machine' →
    Tidy program machine.store → agree machine.store →
    machine.store.value? holder = some (.primitive (.partially op first)) →
    machine.store.value? first = none → machine'.store.value? first = none
  allot : ∀ {machine machine' address}, tie machine machine' →
    machine.store.lookup? address = none →
      tie { machine with store := machine.store.allot address }
        { machine' with store := machine'.store.allot address }
  withEnvs : ∀ {machine machine' envs}, tie machine machine' → machine.store.envs.Grows envs →
    tie { machine with store := { machine.store with envs } }
      { machine' with store := { machine'.store with envs } }
  write : ∀ {machine machine' env expr explanation value node final}, tie machine machine' →
    Tidy program machine.store →
    Store.write (.evaluation env expr) (.of explanation value) machine.store = .ok node final →
    machine.store.Grows final → Tidy program final → agree final →
      ∃ final', Store.write (.evaluation env expr) (.of explanation value) machine'.store =
        .ok node final' ∧ tie { machine with store := final } { machine' with store := final' }

variable {program : Program} {α β : Type}

/-- A second run of the same program, which sees the same values. -/
structure Twin (program : Program) where
  tie : Machine → Machine → Prop
  /-- Whether the second run follows also where the first one gives up. -/
  patient : Prop
  alike : ∀ {machine machine'}, tie machine machine' → machine.store.Alike machine'.store
  value?_eq : ∀ {machine machine'}, tie machine machine' → ∀ node,
    machine'.store.value? node = machine.store.value? node
  allot : ∀ {machine machine' address}, tie machine machine' →
    machine.store.lookup? address = none →
      tie { machine with store := machine.store.allot address }
        { machine' with store := machine'.store.allot address }
  withEnvs : ∀ {machine machine' envs}, tie machine machine' → machine.store.envs.Grows envs →
    tie { machine with store := { machine.store with envs } }
      { machine' with store := { machine'.store with envs } }
  write : ∀ {machine machine' env expr explanation value node final}, tie machine machine' →
    Tidy program machine.store →
    Store.write (.evaluation env expr) (.of explanation value) machine.store = .ok node final →
    machine.store.Grows final →
      ∃ final', Store.write (.evaluation env expr) (.of explanation value) machine'.store =
        .ok node final' ∧ tie { machine with store := final } { machine' with store := final' }

/-- Nothing has to be known of the stores that a twin runs into. -/
def Twin.companion (twin : Twin program) : Companion program where
  other := program
  tie := twin.tie
  agree _ := True
  strict := True
  patient := twin.patient
  other_eq := rfl
  agree_of_grows _ hagree := hagree
  expr_of_value _ _ _ _ := rfl
  expr_of_closure _ _ _ := rfl
  exprs_of_strict _ := rfl
  alike := twin.alike
  value htie hvalue := (twin.value?_eq htie _).trans hvalue
  delayed htie _ _ _ _ hvalue _ := (twin.value?_eq htie _).trans hvalue
  partially htie _ _ _ hvalue := (twin.value?_eq htie _).trans hvalue
  allot := twin.allot
  withEnvs := twin.withEnvs
  write htie htidy hwrite hgrows _ _ := twin.write htie htidy hwrite hgrows

namespace Companion

variable (companion : Companion program)

/-- The second run fails in the same way if the first one fails with this error. -/
def Pursues (error : Error) : Prop :=
  companion.strict ∧ (error.isLimit = true → companion.patient)

/-! The two programs differ in their expressions only. -/

theorem demand_eq (demand : DemandId) : companion.other.demand demand = program.demand demand := by
  rw [companion.other_eq]
  rfl

theorem demands_eq : companion.other.demands = program.demands := by
  rw [companion.other_eq]

theorem group_eq (group : GroupId) : companion.other.group group = program.group group := by
  rw [companion.other_eq]
  rfl

theorem symbols_eq : companion.other.symbols = program.symbols := by
  rw [companion.other_eq]

theorem name_eq (symbol : Symbol) : companion.other.name symbol = program.name symbol := by
  rw [companion.other_eq]
  rfl

theorem constructor?_eq (tag : Symbol) :
    companion.other.constructor? tag = program.constructor? tag := by
  rw [companion.other_eq]
  rfl

theorem describe_eq (demand : DemandId) :
    companion.other.describe demand = program.describe demand := by
  rw [companion.other_eq]
  rfl

theorem mismatch_eq (demand : DemandId) (value : Value) :
    Matching.mismatch companion.other demand value = Matching.mismatch program demand value := by
  rw [Matching.mismatch, companion.describe_eq, companion.symbols_eq, Matching.mismatch]

end Companion

/-- The machine has the whole library at hand, and remembers what matching would come to. -/
structure Machine.Consistent (program : Program) (machine : Machine) : Prop where
  stocked : ∀ primitive, ∃ node, machine.store.library.lookup primitive = some node
  revision : machine.memo.revision = .root
  memo : ∀ {request : Request} {outcome}, machine.memo.outcomes[request]? = some outcome →
    Reached program machine.store request.env request.expr request.demand outcome

/-- In what order a run from a store leaves the machine. -/
structure Ends (program : Program) (store : Store) (final : Machine) : Prop where
  grows : store.Grows final.store
  inputs : store.KeepsInputs final.store
  sound : Sound program final.store
  consistent : final.Consistent program

/-- The first run keeps its store sound, ends as described, and the second run follows it. -/
def Tied (companion : Companion program) (left right : Evaluating α) (store : Store)
    (ok : α → Store → Prop) (fail : Error → Store → Prop) : Prop :=
  ∀ machine : Machine, machine.store = store → Sound program store → machine.Consistent program →
    (∀ {result final}, left machine = .ok result final →
      Ends program store final ∧ ok result final.store ∧
        (companion.agree final.store → ∀ {machine'}, companion.tie machine machine' →
          ∃ final', right machine' = .ok result final' ∧ companion.tie final final')) ∧
    (∀ {error final}, left machine = .error error final →
      Ends program store final ∧ (error.isLimit = true ∨ fail error final.store) ∧
        (companion.Pursues error → companion.agree final.store →
          ∀ {machine'}, companion.tie machine machine' →
            ∃ final', right machine' = .error error final' ∧ companion.tie final final'))

theorem Reached.grow {store store' : Store} (hcanonical : store.envs.Canonical)
    (hgrows : store.Grows store') {env : EnvId} {expr : ExprId} {demand : DemandId}
    {outcome : Outcome} (hreached : Reached program store env expr demand outcome) :
    Reached program store' env expr demand outcome :=
  ⟨hgrows.lookup hreached.lookup, hreached.settled.grow hcanonical hgrows fun _ _ ↦ trivial⟩

theorem Machine.Consistent.grow {machine : Machine} (hconsistent : machine.Consistent program)
    (hcanonical : machine.store.envs.Canonical) {store : Store}
    (hgrows : machine.store.Grows store) : Machine.Consistent program { machine with store } where
  stocked primitive := by
    obtain ⟨node, hnode⟩ := hconsistent.stocked primitive
    exact ⟨node, by rw [hgrows.library, hnode]⟩
  revision := hconsistent.revision
  memo hmemo := (hconsistent.memo hmemo).grow hcanonical hgrows

theorem Ends.trans {store : Store} {machine final : Machine} (hfirst : Ends program store machine)
    (hsecond : Ends program machine.store final) : Ends program store final :=
  ⟨hfirst.grows.trans hsecond.grows, hfirst.inputs.trans hsecond.grows hsecond.inputs, hsecond.sound,
    hsecond.consistent⟩

namespace Tied

variable {companion : Companion program} {left right : Evaluating α} {store : Store}
  {ok : α → Store → Prop} {fail : Error → Store → Prop}

theorem ends_refl {machine : Machine} (hstore : machine.store = store)
    (hsound : Sound program store) (hconsistent : machine.Consistent program) :
    Ends program store machine :=
  ⟨hstore ▸ .refl store, hstore ▸ .refl store, hstore ▸ hsound, hconsistent⟩

theorem of_pure {result : α} (hok : ok result store) :
    Tied companion (pure result) (pure result) store ok fail := by
  intro machine hstore hsound hconsistent
  refine ⟨fun heq ↦ ?_, fun heq ↦ by cases heq⟩
  cases heq
  exact ⟨ends_refl hstore hsound hconsistent, hstore ▸ hok, fun _ {machine'} htie ↦
    ⟨machine', rfl, htie⟩⟩

theorem of_throw {error : Error} (hfail : fail error store) :
    Tied companion (throw error : Evaluating α) (throw error) store ok fail := by
  intro machine hstore hsound hconsistent
  refine ⟨fun heq ↦ (by cases heq), fun heq ↦ ?_⟩
  cases heq
  exact ⟨ends_refl hstore hsound hconsistent, .inr (hstore ▸ hfail), fun _ _ {machine'} htie ↦
    ⟨machine', rfl, htie⟩⟩

/-- The store may be taken to be sound. -/
theorem with_sound (htied : Sound program store → Tied companion left right store ok fail) :
    Tied companion left right store ok fail :=
  fun machine hstore hsound hconsistent ↦ htied hsound machine hstore hsound hconsistent

/-- Giving up needs no description, and only who is patient has to follow. -/
theorem of_limit {error : Error} (hlimit : error.isLimit = true)
    (hright : companion.patient → right = throw error) :
    Tied companion (throw error : Evaluating α) right store ok fail := by
  intro machine hstore hsound hconsistent
  refine ⟨fun heq ↦ (by cases heq), fun heq ↦ ?_⟩
  cases heq
  refine ⟨ends_refl hstore hsound hconsistent, .inl hlimit, fun hpursues _ machine' htie ↦ ?_⟩
  rw [hright (hpursues.2 hlimit)]
  exact ⟨machine', rfl, htie⟩

theorem mono {ok' : α → Store → Prop} {fail' : Error → Store → Prop}
    (htied : Tied companion left right store ok fail)
    (hok : ∀ {result final}, store.Grows final → Sound program final → ok result final →
      ok' result final)
    (hfail : ∀ {error final}, store.Grows final → Sound program final → fail error final →
      fail' error final) : Tied companion left right store ok' fail' := by
  intro machine hstore hsound hconsistent
  obtain ⟨hleft, hright⟩ := htied machine hstore hsound hconsistent
  refine ⟨fun heq ↦ ?_, fun heq ↦ ?_⟩
  · obtain ⟨hends, hresult, hfollows⟩ := hleft heq
    exact ⟨hends, hok hends.grows hends.sound hresult, hfollows⟩
  · obtain ⟨hends, herror, hfollows⟩ := hright heq
    exact ⟨hends, herror.imp_right (hfail hends.grows hends.sound), hfollows⟩

/-- Why the computation may fail is of no interest. -/
theorem forget (htied : Tied companion left right store ok fail) :
    Tied companion left right store ok fun _ _ ↦ True :=
  htied.mono (fun _ _ hok ↦ hok) fun _ _ _ ↦ trivial

theorem bind {next next' : α → Evaluating β} {ok' : β → Store → Prop} {between : α → Store → Prop}
    (hfirst : Tied companion left right store between fail)
    (hsecond : ∀ {result final}, store.Grows final → Sound program final → between result final →
      Tied companion (next result) (next' result) final ok' fail) :
    Tied companion (left >>= next) (right >>= next') store ok' fail := by
  intro machine hstore hsound hconsistent
  obtain ⟨hok, herror⟩ := hfirst machine hstore hsound hconsistent
  change (∀ {result final}, EStateM.bind left next machine = .ok result final → _) ∧
    (∀ {error final}, EStateM.bind left next machine = .error error final → _)
  cases hleft : left machine with
  | error error final =>
    simp only [EStateM.bind, hleft]
    refine ⟨fun heq ↦ (by cases heq), fun heq ↦ ?_⟩
    cases heq
    obtain ⟨hends, hfail, hfollows⟩ := herror hleft
    refine ⟨hends, hfail, fun hpursues hagree machine' htie ↦ ?_⟩
    obtain ⟨final', hright, htie'⟩ := hfollows hpursues hagree htie
    exact ⟨final', by simp only [Bind.bind, EStateM.bind, hright], htie'⟩
  | ok result middle =>
    obtain ⟨hends, hbetween, hfollows⟩ := hok hleft
    obtain ⟨hok', herror'⟩ := hsecond hends.grows hends.sound hbetween middle rfl
      hends.sound hends.consistent
    simp only [EStateM.bind, hleft]
    refine ⟨fun heq ↦ ?_, fun heq ↦ ?_⟩
    · obtain ⟨hends', hresult, hfollows'⟩ := hok' heq
      refine ⟨hends.trans hends', hresult, fun hagree machine' htie ↦ ?_⟩
      obtain ⟨middle', hright, htie'⟩ :=
        hfollows (companion.agree_of_grows hends'.grows hagree) htie
      obtain ⟨final', hright', htie''⟩ := hfollows' hagree htie'
      exact ⟨final', by simp only [Bind.bind, EStateM.bind, hright, hright'], htie''⟩
    · obtain ⟨hends', hfail, hfollows'⟩ := herror' heq
      refine ⟨hends.trans hends', hfail, fun hpursues hagree machine' htie ↦ ?_⟩
      obtain ⟨middle', hright, htie'⟩ :=
        hfollows (companion.agree_of_grows hends'.grows hagree) htie
      obtain ⟨final', hright', htie''⟩ := hfollows' hpursues hagree htie'
      exact ⟨final', by simp only [Bind.bind, EStateM.bind, hright, hright'], htie''⟩

/-- The second run may be any that does the same in view of where the first one ends. -/
theorem congr_right_of_ends {right' : Evaluating α}
    (htied : Tied companion left right' store ok fail)
    (hsame : ∀ {machine machine' final}, machine.store = store → Sound program store →
      store.Grows final → companion.agree final → (companion.strict ∨ ∃ result, ok result final) →
      companion.tie machine machine' → right machine' = right' machine') :
    Tied companion left right store ok fail := by
  intro machine hstore hsound hconsistent
  obtain ⟨hok, herror⟩ := htied machine hstore hsound hconsistent
  refine ⟨fun heq ↦ ?_, fun heq ↦ ?_⟩
  · obtain ⟨hends, hresult, hfollows⟩ := hok heq
    refine ⟨hends, hresult, fun hagree machine' htie ↦ ?_⟩
    rw [hsame hstore hsound hends.grows hagree (.inr ⟨_, hresult⟩) htie]
    exact hfollows hagree htie
  · obtain ⟨hends, hfail, hfollows⟩ := herror heq
    refine ⟨hends, hfail, fun hpursues hagree machine' htie ↦ ?_⟩
    rw [hsame hstore hsound hends.grows hagree (.inl hpursues.1) htie]
    exact hfollows hpursues hagree htie

/-- The second run may be any that does the same where the first one is followed. -/
theorem congr_right {right' : Evaluating α} (htied : Tied companion left right' store ok fail)
    (hsame : ∀ {machine machine'}, machine.store = store → Sound program store →
      companion.agree store → companion.tie machine machine' → right machine' = right' machine') :
    Tied companion left right store ok fail :=
  htied.congr_right_of_ends fun hstore hsound hgrows hagree _ htie ↦
    hsame hstore hsound (companion.agree_of_grows hgrows hagree) htie

/-- The second run may also be one that does the same in view of where the first one ends. -/
theorem swap_right {right' : Evaluating α} (htied : Tied companion left right' store ok fail)
    (hok : ∀ {result final}, Sound program final → ok result final → companion.agree final →
      right = right')
    (hstrict : companion.strict → right = right') : Tied companion left right store ok fail := by
  intro machine hstore hsound hconsistent
  obtain ⟨hleft, hright⟩ := htied machine hstore hsound hconsistent
  refine ⟨fun heq ↦ ?_, fun heq ↦ ?_⟩
  · obtain ⟨hends, hresult, hfollows⟩ := hleft heq
    refine ⟨hends, hresult, fun hagree machine' htie ↦ ?_⟩
    rw [hok hends.sound hresult hagree]
    exact hfollows hagree htie
  · obtain ⟨hends, hfail, hfollows⟩ := hright heq
    refine ⟨hends, hfail, fun hpursues hagree machine' htie ↦ ?_⟩
    rw [hstrict hpursues.1]
    exact hfollows hpursues hagree htie

/-- Both runs go on with what they read, if they read the same in view of where the first one ends. -/
theorem inspect_of_ends {read : Store → α} {next next' : α → Evaluating β} {ok' : β → Store → Prop}
    (hread : ∀ {machine machine' final}, machine.store = store → Sound program store →
      store.Grows final → companion.agree final → (companion.strict ∨ ∃ result, ok' result final) →
      companion.tie machine machine' → read machine'.store = read store)
    (hnext : Tied companion (next (read store)) (next' (read store)) store ok' fail) :
    Tied companion (Machine.inspect read >>= next) (Machine.inspect read >>= next') store ok'
      fail := by
  have hinspect : ∀ (next : α → Evaluating β) (machine : Machine),
      (Machine.inspect read >>= next) machine = next (read machine.store) machine := by
    intro next machine
    rfl
  have hleft : Tied companion (Machine.inspect read >>= next) (next' (read store)) store ok' fail := by
    intro machine hstore hsound hconsistent
    rw [hinspect next machine, hstore]
    exact hnext machine hstore hsound hconsistent
  refine hleft.congr_right_of_ends ?_
  intro machine machine' final hstore hsound hgrows hagree hends htie
  rw [hinspect next' machine', hread hstore hsound hgrows hagree hends htie]

/-- Both runs go on with what they read, if they read the same. -/
theorem inspect {read : Store → α} {next next' : α → Evaluating β} {ok' : β → Store → Prop}
    (hread : ∀ {machine machine'}, machine.store = store → Sound program store →
      companion.agree store → companion.tie machine machine' → read machine'.store = read store)
    (hnext : Tied companion (next (read store)) (next' (read store)) store ok' fail) :
    Tied companion (Machine.inspect read >>= next) (Machine.inspect read >>= next') store ok' fail :=
  inspect_of_ends (fun hstore hsound hgrows hagree _ htie ↦
    hread hstore hsound (companion.agree_of_grows hgrows hagree) htie) hnext

end Tied

end Whence
