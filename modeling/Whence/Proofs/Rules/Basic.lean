import Whence.Proofs.Matching

/-!
# The steps of the rules in company

Each rule of evaluation finds a value, writes it and matches it, or takes over the value and the
outcome of another node.  These last steps are common to the rules and are described here, with the
look-up of names, the registering of arguments and sequences of definitions.
-/

namespace Whence

variable {program : Program} {companion : Companion program} {store start : Store} {env : EnvId}
  {expr : ExprId} {demand : DemandId} {evaluate evaluate' : Evaluator} {reach : Nat}

/-- What evaluating an expression comes to. -/
abbrev Evaluates (program : Program) (store : Store) (env : EnvId) (expr : ExprId)
    (demand : DemandId) (outcome : Outcome) (final : Store) : Prop :=
  Reached program final env expr demand outcome ∧ Covers store final [outcome.node]

theorem SettlesArgs.transfer {allowed : NodeId → Prop} {outcome final : Outcome} {args : List NodeId}
    (node : NodeId) (hsettles : SettlesArgs program store allowed outcome args final) :
    SettlesArgs program store allowed { outcome with node } args { final with node } := by
  induction args generalizing outcome with
  | nil =>
    cases hsettles
    exact .nil
  | cons arg args ih =>
    cases hsettles with
    | cons hnext hmatched hcontains hentries hrest =>
      exact .cons hnext hmatched hcontains hentries (ih hrest)

/-- A node with the same value matches in the same way. -/
theorem Settles.transfer {source node : NodeId} {outcome : Outcome} {value : Value}
    (hsource : store.value? source = some value) (hnode : store.value? node = some value)
    (hbind : (program.demand demand).isBind = false)
    (hsettled : Settled program store source demand outcome) :
    Settled program store node demand { outcome with node } := by
  cases hsettled with
  | bind hdemand _ _ => simp [hdemand, Demand.isBind] at hbind
  | everything hdemand hforced =>
    cases hforced with
    | intro _ hvalue hparts =>
      rw [hsource] at hvalue
      cases hvalue
      exact .everything hdemand (.intro trivial hnode hparts)
  | kind _ hvalue haccepts =>
    rw [hsource] at hvalue
    cases hvalue
    exact .kind trivial hnode haccepts
  | constructor hdemand _ hvalue hcase hargs =>
    rw [hsource] at hvalue
    cases hvalue
    exact .constructor hdemand trivial hnode hcase (hargs.transfer node)

theorem Tied.explain {fail : Error → Store → Prop} {explanation : Explanation} {source : NodeId}
    {value : Value} {outcome : Outcome} {roots : List NodeId} (hsound : Sound program store)
    (henv : store.envs.Contains env) (hvalue : store.value? source = some value)
    (hrule : Rule program store (fun _ ↦ True) env expr (program.expr expr) explanation value)
    (hbind : (program.demand demand).isBind = false)
    (hsettled : Settled program store source demand outcome) (hcovers : Covers start store roots)
    (hroots : ∀ root ∈ roots, root ∈ explanation.dependencies) :
    Tied companion (Rules.explain (.evaluation env expr) explanation source outcome)
      (Rules.explain (.evaluation env expr) explanation source outcome) store
      (Evaluates program start env expr demand) fail := by
  refine Tied.inspect (fun hstore _ _ htie ↦ ?_) ?_
  · rw [hvalue]
    exact companion.value htie (hstore ▸ hvalue)
  · rw [hvalue]
    refine Tied.bind (Tied.write hsound henv hrule) ?_
    intro node final hgrows hsound' hwritten
    refine Tied.of_pure ⟨⟨hwritten.lookup, ?_⟩, ?_⟩
    · exact (hsettled.grow hsound.envs hgrows fun _ _ ↦ trivial).transfer (hgrows.value hvalue)
        (Store.value?_of_knowledge hwritten.knowledge) hbind
    · have hall := hcovers.trans hsound.toRooted hgrows hwritten.covers
      refine hall.through hsound'.toTidy fun root hroot ↦ ?_
      rw [List.mem_append, List.mem_singleton] at hroot
      obtain hroot | rfl := hroot
      · refine .inr ?_
        rw [Store.references_of_knowledge hwritten.knowledge]
        exact List.mem_append_right _ (hroots root hroot)
      · exact .inl rfl

theorem Tied.matchWritten (reach : Nat) (hregular : program.Regular)
    (hmeets : Meets companion evaluate evaluate')
    {write : Evaluating NodeId} {form : Expr}
    (hwrite : Tied companion write write store
      (fun node final ↦ final.lookup? (.evaluation env expr) = some node ∧
        (∃ value, final.value? node = some value) ∧ Covers start final [node])
      (fun error final ↦ Fails program final (.form form env expr demand) error)) :
    Tied companion
      (do
        let node ← write
        Matching.node program reach evaluate node demand)
      (do
        let node ← write
        Matching.node companion.other reach evaluate' node demand) store
      (Evaluates program start env expr demand)
      (fun error final ↦ Fails program final (.form form env expr demand) error) := by
  refine Tied.bind hwrite ?_
  rintro node middle hgrows hsound ⟨hlookup, hvalue, hcovers⟩
  refine (Matches.node hregular hmeets reach hsound (hsound.contains_of_lookup hlookup)
    (.inr hvalue)).mono ?_ ?_
  · rintro outcome final hgrows' _ ⟨rfl, hsettled, hcovers'⟩
    refine ⟨⟨hgrows'.lookup hlookup, hsettled⟩, ?_⟩
    exact (hcovers.trans hsound.toRooted hgrows' hcovers').mono (by simp)
  · intro error final hgrows' _ hfail
    exact .value (hgrows'.lookup hlookup) hfail

theorem Tied.given (hregular : program.Regular) (hmeets : Meets companion evaluate evaluate')
    {form : Expr} {value : Value} (hsound : Sound program store) (henv : store.envs.Contains env)
    (hform : program.expr expr = form)
    (hrule : Rule program store (fun _ ↦ True) env expr form .given value)
    (hcovers : Covers start store []) :
    Tied companion (Rules.given program reach evaluate (.evaluation env expr) value demand)
      (Rules.given companion.other reach evaluate' (.evaluation env expr) value demand) store
      (Evaluates program start env expr demand)
      (fun error final ↦ Fails program final (.form form env expr demand) error) := by
  refine Tied.matchWritten reach hregular hmeets ((Tied.write hsound henv (hform ▸ hrule)).mono ?_
    fun _ _ hfail ↦ hfail)
  intro node final hgrows _ hwritten
  exact ⟨hwritten.lookup, ⟨value, Store.value?_of_knowledge hwritten.knowledge⟩,
    hcovers.trans hsound.toRooted hgrows hwritten.covers⟩

theorem Tied.function (hregular : program.Regular) (hmeets : Meets companion evaluate evaluate')
    {parameter : DemandId} (hsound : Sound program store) (henv : store.envs.Contains env)
    (hliteral : program.expr expr = .function parameter) :
    Tied companion
      (Rules.given program reach evaluate (.evaluation env expr) (.closure ⟨env, expr, none⟩) demand)
      (Rules.given companion.other reach evaluate' (.evaluation env expr)
        (.closure ⟨env, expr, none⟩) demand) store
      (Evaluates program store env expr demand)
      (fun error final ↦ Fails program final (.form (.function parameter) env expr demand) error) := by
  refine Tied.matchWritten reach hregular hmeets ((Tied.writeClosure hsound henv hliteral).mono ?_
    fun _ _ hfail ↦ hfail)
  rintro node final - - ⟨scope, -, hwritten⟩
  exact ⟨hwritten.lookup, ⟨_, Store.value?_of_knowledge hwritten.knowledge⟩, hwritten.covers⟩

theorem Tied.resolve {fail : Error → Store → Prop} (hregular : program.Regular)
    (hsound : Sound program store) (name : Symbol) {binding : Binding}
    (hmem : (name, binding) ∈ store.envs.entries env) :
    Tied companion (Rules.resolve program name binding)
      (Rules.resolve companion.other name binding) store
      (fun target final ↦ Resolves program final binding target ∧ final.Contains target ∧
        (final.Exposes target ∨ ∃ value, final.value? target = some value) ∧
        Covers store final [target]) fail := by
  cases binding with
  | node id =>
    exact Tied.of_pure ⟨.node, hsound.bound hmem, .inl (.inl ⟨env, name, hmem⟩), .refl _ _⟩
  | recursive scope position =>
    obtain ⟨parent, -, ⟨houter, hposition, -⟩, -⟩ := hsound.fits_of_mem hmem
    obtain ⟨inner, members, hmembers⟩ := hsound.closed hmem
    have hentry := List.getElem?_eq_getElem hposition
    simp only [Rules.resolve, companion.group_eq, hentry]
    refine (Tied.closeEntry hregular hsound hmembers (List.getElem_mem hposition)).mono ?_
      fun _ _ hfail ↦ hfail
    rintro node final hgrows hsound' ⟨hholds, hcovers⟩
    exact ⟨.recursive hentry (hmembers.1.grow hgrows) hholds,
      hsound'.contains_of_lookup hholds.lookup,
      .inr ⟨_, Store.value?_of_knowledge hholds.knowledge⟩, hcovers⟩

theorem Tied.lookup (hregular : program.Regular) (hmeets : Meets companion evaluate evaluate')
    {name : Symbol} {form : Expr} (hsound : Sound program store) (henv : store.envs.Contains env)
    (hform : program.expr expr = form) (hname : form = .var name ∨ form = .op name)
    (hbind : (program.demand demand).isBind = false) :
    Tied companion (Rules.lookup program reach evaluate env (.evaluation env expr) name demand)
      (Rules.lookup companion.other reach evaluate' env (.evaluation env expr) name demand) store
      (Evaluates program store env expr demand)
      (fun error final ↦ Fails program final (.form form env expr demand) error) := by
  refine Tied.inspect (fun hstore _ _ htie ↦ ?_) ?_
  · rw [(companion.alike htie).envs, hstore]
  · cases hbinding : store.envs.get? env name with
    | none =>
      rw [companion.name_eq]
      refine Tied.of_throw ?_
      obtain rfl | rfl := hname
      · exact .unboundVar hbinding
      · exact .unboundOp hbinding
    | some binding =>
      refine Tied.bind (Tied.resolve hregular hsound name (Environments.mem_of_get? hbinding)) ?_
      rintro target middle hgrows hsound' ⟨hresolves, hcontains, hheld, hcovers⟩
      have hbinding' := hgrows.get? hbinding
      refine Tied.bind ((Matches.node hregular hmeets reach hsound' hcontains hheld).mono
        (fun _ _ hmatched ↦ hmatched) ?_) ?_
      · intro error final hgrows' _ hfail
        have hbinding'' := hgrows'.get? hbinding'
        obtain rfl | rfl := hname
        · exact .var hbinding'' (hresolves.grow hgrows') hfail
        · exact .op hbinding'' (hresolves.grow hgrows') hfail
      · rintro outcome middle' hgrows' hsound'' ⟨rfl, hsettled, hcovers'⟩
        obtain ⟨value, hvalue⟩ := hsettled.exists_value hbind
        have hrule : Rule program middle' (fun _ ↦ True) env expr (program.expr expr)
            (.lookup name outcome.node) value := by
          rw [hform]
          obtain rfl | rfl := hname
          · exact .var (hgrows'.get? hbinding') (hresolves.grow hgrows') trivial hvalue
          · exact .op (hgrows'.get? hbinding') (hresolves.grow hgrows') trivial hvalue
        exact Tied.explain hsound'' ((hgrows.trans hgrows').envs.contains henv) hvalue hrule hbind
          hsettled (hcovers.trans hsound'.toRooted hgrows' hcovers') (by simp [Explanation.dependencies])

end Whence
