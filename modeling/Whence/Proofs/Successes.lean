import Whence.Proofs.Nesting

/-!
# Evaluations that succeed

Evaluation may fail by the limits or by the program.  It is shown here that it does not for the
simplest lazy programs, in which a name is bound to a text and then asked for, as soon as the levels of
nesting suffice.  A computation succeeds on a store if it does so on every machine in order with this
store; what it then comes to has been shown for all computations.  A name that leads to a known value
is evaluated without changing anything but what is known about the name.
-/

namespace Whence

variable {program : Program} {settings : Settings} {store : Store} {env : EnvId} {expr : ExprId}
  {node : NodeId} {α β : Type}

namespace Evaluation

/-- The computation succeeds on every machine in order that has the store. -/
def Succeeds (program : Program) (store : Store) (computation : Evaluating α) : Prop :=
  ∀ machine : Machine, machine.store = store → Sound program store → machine.Consistent program →
    ∃ result final, computation machine = .ok result final

/-- Nested evaluation does what the rules say, beside itself. -/
theorem meets_nested (hregular : program.Regular) (settings : Settings) (depth : Nat) :
    Meets (.sharing program rfl) (nested program settings depth) (nested program settings depth) :=
  Meets.nested hregular rfl rfl (fun _ ↦ Companion.sharing_remembers settings _) depth

namespace Succeeds

theorem of_pure (result : α) : Succeeds program store (pure result) :=
  fun machine _ _ _ ↦ ⟨result, machine, rfl⟩

theorem of_change (operation : Store → α × Store) :
    Succeeds program store (Machine.change operation) :=
  fun machine _ _ _ ↦ ⟨_, _, Machine.change_eq operation machine⟩

theorem with_sound {computation : Evaluating α}
    (hsucceeds : Sound program store → Succeeds program store computation) :
    Succeeds program store computation :=
  fun machine hstore hsound hconsistent ↦ hsucceeds hsound machine hstore hsound hconsistent

/-- Computations succeed one after the other if the second one does so wherever the first one may
lead. -/
theorem bind {left right : Evaluating α} {next : α → Evaluating β} {between : α → Store → Prop}
    (hfirst : Succeeds program store left)
    (htied : Tied (.sharing program rfl) left right store between fun _ _ ↦ True)
    (hnext : ∀ {result final}, store.Grows final → Sound program final → between result final →
      Succeeds program final (next result)) : Succeeds program store (left >>= next) := by
  intro machine hstore hsound hconsistent
  obtain ⟨result, middle, hleft⟩ := hfirst machine hstore hsound hconsistent
  obtain ⟨hends, hbetween, -⟩ := (htied machine hstore hsound hconsistent).1 hleft
  obtain ⟨last, final, hright⟩ :=
    hnext hends.grows hends.sound hbetween middle rfl hends.sound hends.consistent
  refine ⟨last, final, ?_⟩
  rw [run_bind, hleft]
  exact hright

theorem inspect {read : Store → α} {next : α → Evaluating β}
    (hnext : Succeeds program store (next (read store))) :
    Succeeds program store (Machine.inspect read >>= next) := by
  intro machine hstore hsound hconsistent
  rw [run_bind, Machine.run_inspect, hstore]
  exact hnext machine hstore hsound hconsistent

/-- What is remembered is not evaluated. -/
theorem memoized {request : Request} {compute : Evaluating Outcome}
    (hcompute : Succeeds program store compute) :
    Succeeds program store (Machine.memoized settings request compute) := by
  intro machine hstore hsound hconsistent
  have hsynchronized := hconsistent.synchronize (hstore ▸ hsound.toRooted)
  cases hremembered : machine.remembered? settings request with
  | some outcome =>
    exact ⟨outcome, machine, Machine.memoized_of_some compute hsynchronized hremembered⟩
  | none =>
    obtain ⟨outcome, final, hrun⟩ := hcompute machine hstore hsound hconsistent
    refine ⟨outcome, Machine.remember settings request outcome final, ?_⟩
    rw [Machine.memoized_of_none compute hsynchronized hremembered, hrun]

theorem write (hsound : Sound program store) (henv : store.envs.Contains env)
    {explanation : Explanation} {value : Value}
    (hrule : Rule program store (fun _ ↦ True) env expr (program.expr expr) explanation value) :
    Succeeds program store
      (Machine.perform (Store.write (.evaluation env expr) (.of explanation value))) := by
  intro machine hstore _ hconsistent
  obtain ⟨node, final, hwrite, -⟩ := Does.write (.sharing program rfl) hsound.toTidy henv hrule
    machine hstore hsound.toTidy hconsistent
  exact ⟨node, final, hwrite⟩

/-- The value of a node is taken over for an expression that it is the value of. -/
theorem explain (hsound : Sound program store) (henv : store.envs.Contains env)
    {explanation : Explanation} {value : Value} (hvalue : store.value? node = some value)
    (hrule : Rule program store (fun _ ↦ True) env expr (program.expr expr) explanation value)
    (outcome : Outcome) :
    Succeeds program store (Rules.explain (.evaluation env expr) explanation node outcome) := by
  apply inspect
  rw [hvalue]
  apply bind (write hsound henv hrule) (Tied.write hsound henv hrule)
  intro written final _ _ _
  exact of_pure { outcome with node := written }

/-- A node is matched if its value has no parts, or if it has none yet and its expression is
evaluated. -/
theorem matchNode (hregular : program.Regular) {reach : Nat} {evaluate : Evaluator}
    (hnode : store.Contains node)
    (hvalue : ∀ value, store.value? node = some value → value.parts = [])
    (hnested : store.value? node = none → ∃ env expr, store.address node = .evaluation env expr ∧
      Succeeds program store (evaluate env expr .everything)) :
    Succeeds program store (Matching.node program reach evaluate node .everything) := by
  intro machine hstore hsound hconsistent
  subst hstore
  cases hknown : machine.store.value? node with
  | some value =>
    exact ⟨.plain node .done, machine,
      Matching.node_of_flat hregular reach evaluate hknown (hvalue value hknown)⟩
  | none =>
    obtain ⟨env, expr, haddress, hsucceeds⟩ := hnested hknown
    obtain ⟨outcome, final, hrun⟩ := hsucceeds machine rfl hsound hconsistent
    obtain ⟨steps, hmatch⟩ := Matching.node_eq reach evaluate .everything hnode
    have hevaluated := Matching.within_of_value_none evaluate steps hregular.isBind_everything hknown
      haddress
    refine ⟨outcome, final, ?_⟩
    calc Matching.node program reach evaluate node .everything machine
      _ = evaluate env expr .everything machine := hmatch.trans hevaluated
      _ = .ok outcome final := hrun

variable {name : Symbol} {content : String}

/-- An evaluation succeeds where the rule for the form of its expression does. -/
theorem nested (hregular : program.Regular) {depth : Nat}
    (hform : Succeeds program store (Rules.byForm program settings.reach
      (Evaluation.nested program settings depth) (program.expr expr) env expr .everything)) :
    Succeeds program store
      (Evaluation.nested program settings (depth + 1) env expr .everything) := by
  rw [nested_eq, unremembered, Rules.step_of_not_bind hregular.isBind_everything]
  exact hform.memoized

/-- A text is evaluated at any depth but the last. -/
theorem text (hregular : program.Regular) (henv : store.envs.Contains env)
    (hexpr : program.expr expr = .text content) (depth : Nat) :
    Succeeds program store
      (Evaluation.nested program settings (depth + 1) env expr .everything) := by
  apply with_sound
  intro hsound
  apply nested hregular
  have hrule : Rule program store (fun _ ↦ True) env expr (program.expr expr) .given
      (.text content) := by
    rw [hexpr]
    exact .text
  rw [hexpr]
  apply bind (write hsound henv hrule) (Tied.write hsound henv hrule)
  intro node final _ _ hwritten
  have hvalue := Store.value?_of_knowledge hwritten.knowledge
  apply matchNode hregular (Store.contains_of_value hvalue)
  · intro value hknown
    cases hvalue.symm.trans hknown
    rfl
  · intro hnone
    cases hvalue.symm.trans hnone

/-- A name that leads to a text of the program needs one level more than the text. -/
theorem var (hregular : program.Regular) (henv : store.envs.Contains env)
    (hexpr : program.expr expr = .var name)
    (hbinding : store.envs.get? env name = some (.node node)) {outer : EnvId} {bound : ExprId}
    (hlookup : store.lookup? (.evaluation outer bound) = some node)
    (hbound : program.expr bound = .text content) (depth : Nat) :
    Succeeds program store
      (Evaluation.nested program settings (depth + 2) env expr .everything) := by
  apply with_sound
  intro hsound
  apply nested hregular
  have hnode := hsound.contains_of_lookup hlookup
  have haddress := hsound.address_of_lookup hlookup
  have hmatch : Succeeds program store (Matching.node program settings.reach
      (Evaluation.nested program settings (depth + 1)) node .everything) := by
    apply matchNode hregular hnode
    · intro value hvalue
      obtain ⟨explanation, hknown⟩ := hsound.knowledge_of_value hvalue
      have hrule := hsound.rule hlookup hknown
      rw [hbound] at hrule
      cases hrule
      rfl
    · intro _
      exact ⟨outer, bound, haddress,
        text hregular (hsound.evaluation hnode haddress).1 hbound depth⟩
  have hexposes : store.Exposes node := .inl ⟨env, name, Environments.mem_of_get? hbinding⟩
  rw [hexpr]
  apply inspect
  simp only [hbinding, Rules.resolve, pure_bind]
  apply bind hmatch (Matches.node hregular (meets_nested hregular settings (depth + 1))
    settings.reach hsound hnode (.inl hexposes)).forget
  rintro outcome final hgrows hsound' ⟨rfl, hsettled, -⟩
  obtain ⟨value, hvalue⟩ := hsettled.exists_value hregular.isBind_everything
  apply explain hsound' (hgrows.envs.contains henv) hvalue
  rw [hexpr]
  exact .var (hgrows.get? hbinding) .node trivial hvalue

/-- A binding of a text with the name as its body needs one level more than the name. -/
theorem letIn (hregular : program.Regular) (henv : store.envs.Contains env) {bound body : ExprId}
    (hexpr : program.expr expr = .letIn name bound body) (hbound : program.expr bound = .text content)
    (hbody : program.expr body = .var name) (depth : Nat) :
    Succeeds program store
      (Evaluation.nested program settings (depth + 3) env expr .everything) := by
  apply with_sound
  intro hsound
  apply nested hregular
  rw [hexpr]
  apply bind (of_change _) (Tied.register henv bound)
  rintro node store₁ hgrows₁ hsound₁ ⟨hlookup, -⟩
  have henv₁ := hgrows₁.envs.contains henv
  apply bind (of_change _) (Tied.extend hsound₁ henv₁ name (hsound₁.contains_of_lookup hlookup))
  intro inner store₂ hgrows₂ hsound₂ hinner
  have henv₂ := hgrows₂.envs.contains henv₁
  have hget : store₂.envs.get? inner name = some (.node node) := by
    rw [Environments.get?_eq_lookup, hinner.entries]
    exact List.lookup_cons_self
  apply bind (var hregular hinner.contains hbody hget (hgrows₂.lookup hlookup) hbound depth)
    (meets_nested hregular settings (depth + 2) hinner.contains).forget
  rintro outcome store₃ hgrows₃ hsound₃ ⟨hreached, -⟩
  obtain ⟨value, hvalue⟩ := hreached.settled.exists_value hregular.isBind_everything
  apply explain hsound₃ (hgrows₃.envs.contains henv₂) hvalue
  rw [hexpr]
  exact .letIn ((hgrows₂.trans hgrows₃).lookup hlookup) (hgrows₃.envs.contains hinner.contains)
    (hinner.later henv₂ hgrows₃) (hreached.known hvalue)

/-- An evaluation succeeds if the settings allow as many levels as it needs. -/
theorem evaluate (hregular : program.Regular) (henv : store.envs.Contains env) {levels : Nat}
    (hnested : ∀ depth, Succeeds program store
      (Evaluation.nested program settings (depth + levels) env expr .everything))
    (hlevels : levels ≤ settings.maxDepth) :
    Succeeds program store (Evaluation.evaluate program settings env expr) := by
  obtain ⟨depth, hdepth⟩ := Nat.exists_eq_add_of_le' hlevels
  unfold Evaluation.evaluate Evaluation.under
  rw [hdepth]
  apply bind (hnested depth) (meets_nested hregular settings (depth + levels) henv).forget
  intro outcome final _ _ _
  exact of_pure outcome.node

end Succeeds

end Evaluation

/-- Nothing but the knowledge about the expression has changed. -/
structure Store.Notes (store : Store) (env : EnvId) (expr : ExprId) (final : Store) : Prop where
  envs : final.envs = store.envs
  others : ∀ {node}, final.lookup? (.evaluation env expr) ≠ some node →
    final.knowledge? node = store.knowledge? node

theorem Store.Notes.others_of_lookup {final : Store}
    (hnotes : store.Notes env expr final) {node other : NodeId}
    (hlookup : final.lookup? (.evaluation env expr) = some node) (hother : other ≠ node) :
    final.knowledge? other = store.knowledge? other :=
  hnotes.others fun hfound ↦ hother (Option.some.inj (hfound.symm.trans hlookup))

theorem Written.notes {final : Store} {explanation : Explanation} {value : Value}
    (hwritten : Written store env expr explanation value node final) :
    store.Notes env expr final where
  envs := hwritten.envs
  others hother := hwritten.others fun hsame ↦ hother (hsame ▸ hwritten.lookup)

namespace Evaluation

variable {machine : Machine}

/-- An evaluation whose rule succeeds, or whose outcome is remembered, succeeds. -/
theorem nested_of_step (settings : Settings) (hrooted : machine.store.Rooted)
    (hconsistent : machine.Consistent program) {env : EnvId} {expr : ExprId} {depth : Nat}
    {outcome : Outcome} {final : Machine}
    (hstep : unremembered program settings depth env expr .everything machine =
      .ok outcome final) (hnotes : machine.store.Notes env expr final.store) :
    ∃ outcome final, nested program settings depth env expr .everything machine =
      .ok outcome final ∧ machine.store.Notes env expr final.store := by
  rw [nested_eq]
  have hsynchronized := hconsistent.synchronize hrooted
  cases hremembered : machine.remembered? settings ⟨env, expr, .everything⟩ with
  | some outcome =>
    exact ⟨outcome, machine, Machine.memoized_of_some _ hsynchronized hremembered, rfl, fun _ ↦ rfl⟩
  | none =>
    rw [Machine.memoized_of_none _ hsynchronized hremembered, hstep]
    exact ⟨_, _, rfl, (Machine.store_remember _ _ _ _).symm ▸ hnotes⟩

/-- A name that is bound to a known value without parts is evaluated at any depth but the last. -/
theorem nested_var (settings : Settings) (hregular : program.Regular)
    (hsound : Sound program machine.store) (hconsistent : machine.Consistent program) {env : EnvId}
    (henv : machine.store.envs.Contains env) {expr : ExprId} {name : Symbol} {target : NodeId}
    {value : Value} (hexpr : program.expr expr = .var name)
    (hbinding : machine.store.envs.get? env name = some (.node target))
    (hvalue : machine.store.value? target = some value) (hparts : value.parts = []) (depth : Nat) :
    ∃ outcome final,
      nested program settings (depth + 1) env expr .everything machine = .ok outcome final ∧
        machine.store.Notes env expr final.store := by
  have hrule : Rule program machine.store (fun _ ↦ True) env expr (program.expr expr)
      (.lookup name target) value := by
    rw [hexpr]
    exact .var hbinding .node trivial hvalue
  obtain ⟨node, final, hwrite, -, -, -, -, hwritten, -⟩ :=
    Does.write (.sharing program rfl) hsound.toTidy henv hrule machine rfl hsound.toTidy hconsistent
  have hmatch := Matching.node_of_flat hregular settings.reach (nested program settings depth) hvalue
    hparts
  have hstep : unremembered program settings (depth + 1) env expr .everything machine =
      .ok { Outcome.plain target .done with node } final := by
    rw [unremembered, Rules.step_of_not_bind hregular.isBind_everything, hexpr]
    rw [Knowledge.of] at hwrite
    simp only [Rules.byForm, Rules.lookup, Rules.resolve, Rules.explain, run_bind, pure, EStateM.pure,
      Machine.run_inspect, hbinding, hmatch, hvalue, hwrite]
  exact nested_of_step settings hsound.toRooted hconsistent hstep hwritten.notes

end Evaluation

namespace Program

theorem oneLet_regular : oneLet.Regular := oneLet_built.regular oneLet_literal

theorem oneLet_succeeds {settings : Settings} {store : Store} {env : EnvId}
    (henv : store.envs.Contains env) (hlevels : 3 ≤ settings.maxDepth) :
    Evaluation.Succeeds oneLet store (Evaluation.evaluate oneLet settings env ⟨2⟩) := by
  obtain ⟨name, hbound, hbody, hexpr⟩ := oneLet_spec
  exact .evaluate oneLet_regular henv (.letIn oneLet_regular henv hexpr hbound hbody) hlevels

end Program

end Whence
