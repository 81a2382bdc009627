import Whence.Proofs.Companion

/-!
# The operations of the rules in company

Registering addresses, extending environments, writing what a rule gives and closing groups always
succeed on a sound store.  While a group is being closed the store is only tidy, so these operations
are described on tidy stores first.
-/

namespace Whence

variable {program : Program} {companion : Companion program} {α β : Type} {store : Store}
  {env : EnvId} {expr : ExprId}

/-- The first run succeeds on a tidy store, ends as described, and the second run follows it. -/
def Does (companion : Companion program) (left right : Evaluating α) (store : Store)
    (ok : α → Store → Prop) : Prop :=
  ∀ machine : Machine, machine.store = store → Tidy program store → machine.Consistent program →
    ∃ result final, left machine = .ok result final ∧ store.Grows final.store ∧
      store.KeepsInputs final.store ∧ Tidy program final.store ∧ final.Consistent program ∧
      ok result final.store ∧
      (companion.agree final.store → ∀ {machine'}, companion.tie machine machine' →
        ∃ final', right machine' = .ok result final' ∧ companion.tie final final')

/-- An operation that succeeds on tidy stores may be used on sound ones if it leaves them sound. -/
theorem Does.tied {left right : Evaluating α} {between : α → Store → Prop}
    {ok : α → Store → Prop} {fail : Error → Store → Prop}
    (hdoes : Does companion left right store between)
    (hok : ∀ {result final}, Sound program store → store.Grows final → Tidy program final →
      between result final → Sound program final ∧ ok result final) :
    Tied companion left right store ok fail := by
  intro machine hstore hsound hconsistent
  obtain ⟨result, final, hleft, hgrows, hinputs, htidy, hconsistent', hbetween, hfollows⟩ :=
    hdoes machine hstore hsound.toTidy hconsistent
  obtain ⟨hsound', hresult⟩ := hok hsound hgrows htidy hbetween
  rw [hleft]
  refine ⟨fun heq ↦ ?_, fun heq ↦ (by cases heq)⟩
  cases heq
  exact ⟨⟨hgrows, hinputs, hsound', hconsistent'⟩, hresult, hfollows⟩

namespace Does

theorem of_pure {result : α} {ok : α → Store → Prop} (hok : ok result store) :
    Does companion (pure result) (pure result) store ok := by
  intro machine hstore htidy hconsistent
  exact ⟨result, machine, rfl, hstore ▸ .refl store, hstore ▸ .refl store, hstore ▸ htidy,
    hconsistent, hstore ▸ hok, fun _ {machine'} htie ↦ ⟨machine', rfl, htie⟩⟩

theorem mono {left right : Evaluating α} {ok ok' : α → Store → Prop}
    (hdoes : Does companion left right store ok)
    (hok : ∀ {result final}, store.Grows final → Tidy program final → ok result final →
      ok' result final) : Does companion left right store ok' := by
  intro machine hstore htidy hconsistent
  obtain ⟨result, final, hleft, hgrows, hinputs, htidy', hconsistent', hresult, hfollows⟩ :=
    hdoes machine hstore htidy hconsistent
  exact ⟨result, final, hleft, hgrows, hinputs, htidy', hconsistent', hok hgrows htidy' hresult,
    hfollows⟩

theorem bind {left right : Evaluating α} {next next' : α → Evaluating β}
    {between : α → Store → Prop} {ok : β → Store → Prop}
    (hfirst : Does companion left right store between)
    (hsecond : ∀ {result final}, store.Grows final → Tidy program final → between result final →
      Does companion (next result) (next' result) final ok) :
    Does companion (left >>= next) (right >>= next') store ok := by
  intro machine hstore htidy hconsistent
  obtain ⟨result, middle, hleft, hgrows, hinputs, htidy', hconsistent', hbetween, hfollows⟩ :=
    hfirst machine hstore htidy hconsistent
  obtain ⟨result', final, hleft', hgrows', hinputs', htidy'', hconsistent'', hresult, hfollows'⟩ :=
    hsecond hgrows htidy' hbetween middle rfl htidy' hconsistent'
  refine ⟨result', final, ?_, hgrows.trans hgrows', hinputs.trans hgrows' hinputs', htidy'',
    hconsistent'', hresult, ?_⟩
  · simp only [Bind.bind, EStateM.bind, hleft, hleft']
  · intro hagree machine' htie
    obtain ⟨middle', hright, htie'⟩ := hfollows (companion.agree_of_grows hgrows' hagree) htie
    obtain ⟨final', hright', htie''⟩ := hfollows' hagree htie'
    exact ⟨final', by simp only [Bind.bind, EStateM.bind, hright, hright'], htie''⟩

end Does

theorem Machine.change_eq (operation : Store → α × Store) (machine : Machine) :
    Machine.change operation machine =
      .ok (operation machine.store).1 { machine with store := (operation machine.store).2 } := rfl

theorem Machine.perform_ok {operation : Storing α} {machine : Machine} {result : α} {final : Store}
    (hoperation : operation machine.store = .ok result final) :
    Machine.perform operation machine = .ok result { machine with store := final } := by
  simp only [Machine.perform, hoperation]

theorem Machine.perform_error {operation : Storing α} {machine : Machine} {error : Error}
    {final : Store} (hoperation : operation machine.store = .error error final) :
    Machine.perform operation machine = .error error { machine with store := final } := by
  simp only [Machine.perform, hoperation]

/-- Registering an expression brings no input. -/
theorem Store.KeepsInputs.register (store : Store) (env : EnvId) (expr : ExprId) :
    store.KeepsInputs (store.register (.evaluation env expr)).2 := by
  cases hlookup : store.lookup? (.evaluation env expr) with
  | some node =>
    rw [Store.register_of_lookup hlookup]
    exact .refl store
  | none =>
    rw [Store.register_of_none hlookup]
    intro node source hnode haddress
    simp only [Store.address, Store.node_allot] at haddress
    split at haddress
    · cases haddress
    · simp only [Store.Contains, Store.size_allot] at hnode ⊢
      omega

theorem Does.register (henv : store.envs.Contains env) (expr : ExprId) :
    Does companion (Machine.change fun store ↦ store.register (.evaluation env expr))
      (Machine.change fun store ↦ store.register (.evaluation env expr)) store
      fun node final ↦ final.lookup? (.evaluation env expr) = some node ∧
        final.envs = store.envs ∧ ∀ other, final.knowledge? other = store.knowledge? other := by
  intro machine hstore htidy hconsistent
  subst hstore
  refine ⟨_, _, Machine.change_eq _ machine, Store.register_grows _ _, .register _ _ _,
    htidy.register henv expr,
    hconsistent.grow htidy.envs (Store.register_grows _ _), ⟨Store.lookup?_register _ _, ?_,
    Store.knowledge?_register _ _⟩, ?_⟩
  · cases hlookup : machine.store.lookup? (.evaluation env expr) with
    | some node => rw [Store.register_of_lookup hlookup]
    | none => rw [Store.register_of_none hlookup]; rfl
  · intro _ machine' htie
    have halike := companion.alike htie
    have hids : machine'.store.lookup? (.evaluation env expr) =
        machine.store.lookup? (.evaluation env expr) := by
      rw [Store.lookup?, Store.lookup?, halike.ids]
    rw [Machine.change_eq]
    cases hlookup : machine.store.lookup? (.evaluation env expr) with
    | some node =>
      rw [Store.register_of_lookup hlookup, Store.register_of_lookup (hids.trans hlookup)]
      exact ⟨_, rfl, htie⟩
    | none =>
      rw [Store.register_of_none hlookup, Store.register_of_none (hids.trans hlookup), halike.size]
      exact ⟨_, rfl, companion.allot htie hlookup⟩

theorem Tied.register {fail : Error → Store → Prop} (henv : store.envs.Contains env)
    (expr : ExprId) :
    Tied companion (Machine.change fun store ↦ store.register (.evaluation env expr))
      (Machine.change fun store ↦ store.register (.evaluation env expr)) store
      (fun node final ↦ final.lookup? (.evaluation env expr) = some node ∧
        Covers store final []) fail :=
  (Does.register henv expr).tied fun hsound hgrows htidy ⟨hlookup, henvs, hknowledge⟩ ↦
    ⟨hsound.of_envs_eq htidy hgrows henvs, hlookup, .of_knowledge_eq hknowledge []⟩

/-- Changing the environments alone. -/
theorem Does.changeEnvs (operation : Environments → EnvId × Environments)
    (hgrows : store.envs.Grows (operation store.envs).2)
    (htidy : Tidy program { store with envs := (operation store.envs).2 }) :
    Does companion
      (Machine.change fun store ↦
        ((operation store.envs).1, { store with envs := (operation store.envs).2 }))
      (Machine.change fun store ↦
        ((operation store.envs).1, { store with envs := (operation store.envs).2 }))
      store fun id final ↦ id = (operation store.envs).1 ∧
        final = { store with envs := (operation store.envs).2 } := by
  intro machine hstore htidy' hconsistent
  subst hstore
  refine ⟨_, _, Machine.change_eq _ machine, Store.withEnvs_grows hgrows, .refl _, htidy,
    hconsistent.grow htidy'.envs (Store.withEnvs_grows hgrows), ⟨rfl, rfl⟩, ?_⟩
  intro _ machine' htie
  rw [Machine.change_eq, (companion.alike htie).envs]
  exact ⟨_, rfl, companion.withEnvs htie hgrows⟩

/-- What binding names to nodes leaves behind. -/
structure Bound (store : Store) (outer : EnvId) (bindings : List (Symbol × Binding)) (id : EnvId)
    (final : Store) : Prop where
  contains : final.envs.Contains id
  entries : final.envs.entries id = bindings ++ final.envs.entries outer
  covers : Covers store final []

theorem Bound.later {outer id : EnvId} {bindings : List (Symbol × Binding)} {final later : Store}
    (hbound : Bound store outer bindings id final) (houter : final.envs.Contains outer)
    (hgrows : final.Grows later) :
    later.envs.entries id = bindings ++ later.envs.entries outer := by
  rw [hgrows.envs.entries_eq hbound.contains, hbound.entries, hgrows.envs.entries_eq houter]

theorem Tied.bindNodes {fail : Error → Store → Prop} (operation : Environments → EnvId × Environments)
    (bindings : List (Symbol × Binding)) (hsound : Sound program store)
    (hoperation : operation store.envs = store.envs.extendAll env bindings.reverse)
    (henv : store.envs.Contains env)
    (hnodes : ∀ entry ∈ bindings, ∃ node, entry.2 = .node node ∧ store.Contains node) :
    Tied companion
      (Machine.change fun store ↦
        ((operation store.envs).1, { store with envs := (operation store.envs).2 }))
      (Machine.change fun store ↦
        ((operation store.envs).1, { store with envs := (operation store.envs).2 }))
      store (Bound store env bindings) fail := by
  have hsound' := hsound.bindNodes bindings.reverse henv fun entry hentry ↦
    hnodes entry (List.mem_reverse.1 hentry)
  obtain ⟨hgrows, -, hcontains, hentries⟩ :=
    Environments.extendAll_spec bindings.reverse hsound.envs henv
  rw [← hoperation] at hsound' hgrows hcontains hentries
  refine (Does.changeEnvs operation hgrows hsound'.toTidy).tied ?_
  rintro id final - - - ⟨rfl, rfl⟩
  refine ⟨hsound', hcontains, ?_, .withEnvs _ _ _⟩
  rw [hgrows.entries_eq henv, hentries, List.reverse_reverse]

theorem Tied.extend {fail : Error → Store → Prop} (hsound : Sound program store)
    (henv : store.envs.Contains env) (name : Symbol) {node : NodeId} (hnode : store.Contains node) :
    Tied companion (Machine.change fun store ↦ store.extend env name (.node node))
      (Machine.change fun store ↦ store.extend env name (.node node)) store
      (Bound store env [(name, .node node)]) fail :=
  Tied.bindNodes (fun envs ↦ envs.extend env name (.node node)) [(name, .node node)] hsound rfl henv
    fun entry hentry ↦ by
      cases List.mem_singleton.1 hentry
      exact ⟨node, rfl, hnode⟩

theorem Tied.singleton {fail : Error → Store → Prop} (hsound : Sound program store) (name : Symbol)
    {node : NodeId} (hnode : store.Contains node) :
    Tied companion (Machine.change fun store ↦ store.singleton name (.node node))
      (Machine.change fun store ↦ store.singleton name (.node node)) store
      (Bound store .empty [(name, .node node)]) fail :=
  Tied.extend hsound hsound.envs.contains_empty name hnode

theorem Tied.concat {fail : Error → Store → Prop} (hsound : Sound program store) {inner : EnvId}
    (henv : store.envs.Contains env)
    (hnodes : ∀ entry ∈ store.envs.entries inner, ∃ node, entry.2 = .node node ∧
      store.Contains node) :
    Tied companion (Machine.change fun store ↦ store.concat inner env)
      (Machine.change fun store ↦ store.concat inner env) store
      (Bound store env (store.envs.entries inner)) fail :=
  Tied.bindNodes (fun envs ↦ envs.concat inner env) (store.envs.entries inner) hsound rfl henv hnodes

/-! ## Writing -/

/-- What writing leaves behind. -/
structure Written (store : Store) (env : EnvId) (expr : ExprId) (explanation : Explanation)
    (value : Value) (node : NodeId) (final : Store) : Prop where
  lookup : final.lookup? (.evaluation env expr) = some node
  knowledge : final.knowledge? node = some (.of explanation value)
  envs : final.envs = store.envs
  others : ∀ {other}, other ≠ node → final.knowledge? other = store.knowledge? other
  covers : Covers store final [node]

/-- A write that brings nothing new. -/
theorem Does.rewrite {node : NodeId} {explanation explanation' : Explanation} {value value' : Value}
    (hlookup : store.lookup? (.evaluation env expr) = some node)
    (hknown : store.knowledge? node = some (.of explanation value))
    (hmerge : merge (Knowledge.of explanation value) (.of explanation' value') =
      .ok (.of explanation value)) :
    Does companion (Machine.perform (Store.write (.evaluation env expr) (.of explanation' value')))
      (Machine.perform (Store.write (.evaluation env expr) (.of explanation' value'))) store
      fun node' final ↦ node' = node ∧ final = store := by
  intro machine hstore htidy hconsistent
  subst hstore
  have hwrite := Store.write_of_known htidy.toRooted hlookup hknown
    (Knowledge.isBlank_of explanation' value') hmerge
  refine ⟨node, machine, Machine.perform_ok hwrite, .refl _, .refl _, htidy, hconsistent, ⟨rfl, rfl⟩,
    ?_⟩
  intro hagree machine' htie
  obtain ⟨final', hwrite', htie'⟩ := companion.write htie htidy hwrite (.refl _) htidy hagree
  exact ⟨_, Machine.perform_ok hwrite', htie'⟩

/-- What a rule gives is entered, or it was known already. -/
theorem Does.write (companion : Companion program) (htidy : Tidy program store)
    (henv : store.envs.Contains env)
    {explanation : Explanation} {value : Value}
    (hrule : Rule program store (fun _ ↦ True) env expr (program.expr expr) explanation value) :
    Does companion (Machine.perform (Store.write (.evaluation env expr) (.of explanation value)))
      (Machine.perform (Store.write (.evaluation env expr) (.of explanation value))) store
      (Written store env expr explanation value) := by
  cases hknown : store.knowledge? (store.register (.evaluation env expr)).1 with
  | some knowledge =>
    have hlookup : store.lookup? (.evaluation env expr) =
        some (store.register (.evaluation env expr)).1 := by
      cases hlookup : store.lookup? (.evaluation env expr) with
      | some node => rw [Store.register_of_lookup hlookup]
      | none =>
        rw [Store.register_of_none hlookup] at hknown
        exact absurd (Store.contains_of_knowledge hknown) (by simp [Store.Contains])
    obtain ⟨explanation', value', rfl⟩ := htidy.full hknown
    obtain ⟨rfl, rfl⟩ := (htidy.rule hlookup hknown).unique htidy.envs hrule
    refine (Does.rewrite hlookup hknown (merge_self _)).mono ?_
    rintro node final - - ⟨rfl, rfl⟩
    exact ⟨hlookup, hknown, rfl, fun _ ↦ rfl, .refl _ _⟩
  | none =>
    intro machine hstore _ hconsistent
    subst hstore
    have hwrite := Store.write_of_unknown htidy.toRooted (.evaluation env expr)
      (Knowledge.isBlank_of explanation value) hknown
    have htidy' := htidy.register henv expr
    have hgrows := Store.register_grows machine.store (.evaluation env expr)
    have hinputs := Store.KeepsInputs.register machine.store env expr
    have hlookup := Store.lookup?_register machine.store (.evaluation env expr)
    generalize (machine.store.register (.evaluation env expr)).1 = node at *
    have hunknown : (machine.store.register (.evaluation env expr)).2.knowledge? node = none := by
      rw [Store.knowledge?_register, hknown]
    have hothers := Store.knowledge?_register machine.store (.evaluation env expr)
    have hcovers : Covers machine.store (machine.store.register (.evaluation env expr)).2 [] :=
      .of_knowledge_eq hothers []
    have henvs : (machine.store.register (.evaluation env expr)).2.envs = machine.store.envs := by
      cases hold : machine.store.lookup? (.evaluation env expr) with
      | some node => rw [Store.register_of_lookup hold]
      | none => rw [Store.register_of_none hold]; rfl
    generalize (machine.store.register (.evaluation env expr)).2 = middle at *
    have hnode := htidy'.contains_of_lookup hlookup
    have hrule' := hrule.grow htidy.envs htidy.envs_scoped hgrows (fun _ _ ↦ trivial) henv
    have hentered := htidy'.enter hlookup hunknown hrule'
    have hgrows' : middle.Grows (middle.enter node (.of explanation value)) :=
      Store.enter_grows htidy'.toRooted hnode hunknown
    have hinputs' : middle.KeepsInputs (middle.enter node (.of explanation value)) := by
      intro other source hother _
      rwa [Store.Contains, Store.size_enter] at hother
    refine ⟨node, _, Machine.perform_ok hwrite, hgrows.trans hgrows', hinputs.trans hgrows' hinputs',
      hentered, hconsistent.grow htidy.envs (hgrows.trans hgrows'), ⟨hgrows'.lookup hlookup, ?_, henvs,
      fun hother ↦ ?_, hcovers.trans htidy'.toRooted hgrows' (.enter htidy'.toRooted hnode _)⟩, ?_⟩
    · rw [Store.knowledge?_enter htidy'.toRooted hnode, if_pos rfl]
    · rw [Store.knowledge?_enter htidy'.toRooted hnode, if_neg hother.symm, hothers]
    · intro hagree machine' htie
      obtain ⟨final', hwrite', htie'⟩ :=
        companion.write htie htidy hwrite (hgrows.trans hgrows') hentered hagree
      exact ⟨_, Machine.perform_ok hwrite', htie'⟩

theorem Tied.write {fail : Error → Store → Prop} (hsound : Sound program store)
    (henv : store.envs.Contains env) {explanation : Explanation} {value : Value}
    (hrule : Rule program store (fun _ ↦ True) env expr (program.expr expr) explanation value) :
    Tied companion (Machine.perform (Store.write (.evaluation env expr) (.of explanation value)))
      (Machine.perform (Store.write (.evaluation env expr) (.of explanation value))) store
      (Written store env expr explanation value) fail :=
  (Does.write companion hsound.toTidy henv hrule).tied fun hsound hgrows htidy hwritten ↦
    ⟨hsound.of_envs_eq htidy hgrows hwritten.envs, hwritten⟩

end Whence
