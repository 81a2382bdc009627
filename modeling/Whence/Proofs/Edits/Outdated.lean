import Whence.Proofs.Edits.Runs
import Whence.Proofs.Orderly.Building
import Whence.Proofs.Refusals

/-!
# What is outdated is used

Matching looks at what is visible of a node before it asks whether there is anything to evaluate.  So
a constructor whose arguments are visible to the bottom is made of them as they are, although they may
be what an earlier revision has found of inputs that have changed since.
-/

namespace Whence

variable {program : Program} {store final : Store} {machine : Machine} {env : EnvId} {expr : ExprId}
  {node : NodeId}

namespace Store

/-- What is visible to the bottom stays so as long as values stay. -/
theorem EndsWithin.carry {steps : Nat} (hends : store.EndsWithin steps node)
    (hkept : ∀ {other value}, store.value? other = some value → final.value? other = some value) :
    final.EndsWithin steps node := by
  induction steps generalizing node with
  | zero => exact hends.elim
  | succ steps ih =>
    obtain ⟨value, hvalue, hparts⟩ := hends
    exact ⟨value, hkept hvalue, fun part hpart ↦ ih (hparts part hpart)⟩

/-- The first write of a revision about an expression of which nothing is visible succeeds, and is
visible. -/
theorem Unwritten.write_unknown (hunwritten : store.Unwritten) (hintact : store.Intact)
    (hnamed : store.Named) (hunknown : ∀ {node}, store.lookup? (.evaluation env expr) = some node →
      store.knowledge? node = none) (explanation : Explanation) (value : Value) :
    ∃ node final, write (.evaluation env expr) (.of explanation value) store = .ok node final ∧
      store.size ≤ final.size ∧ store.knowledge? node = none ∧
      (∃ held, final.value? node = some held ∧ below value held) ∧
      ∀ {other}, other ≠ node → final.knowledge? other = store.knowledge? other := by
  cases hwrite : write (.evaluation env expr) (.of explanation value) store with
  | error error final =>
    obtain ⟨-, node, held, -, -, hlookup, hheld, -⟩ := write_eq_error hwrite
    rw [hunwritten node env expr (hnamed.ids.1 hlookup).2] at hheld
    cases hheld
  | ok node final =>
    have hrevisions := write_revisions hwrite
    have hcurrent : final.current = store.current := congrArg Revisions.current hrevisions
    obtain ⟨ancestors, hlineage⟩ := store.exists_lineage_current
    have hnone : store.knowledge? node = none := by
      rw [(write_ok hwrite).1]
      cases hlookup : store.lookup? (.evaluation env expr) with
      | some node => rw [register_of_lookup hlookup, hunknown hlookup]
      | none =>
        rw [register_of_none hlookup, Option.eq_none_iff_forall_ne_some]
        exact fun _ hknown ↦ Nat.lt_irrefl _ (contains_of_knowledge hknown)
    refine ⟨node, final, rfl, ?_, hnone, ?_, fun hother ↦ ?_⟩
    · obtain ⟨-, history, rfl, -⟩ := write_ok hwrite
      rw [size_setHistory]
      exact (register_grows store _).size_le
    · have hcommits := hintact.write_commits hwrite
      rw [hlineage] at hcommits
      obtain ⟨held, hheld, hbelow | ⟨old, hold, -⟩⟩ :=
        hcommits.visible?_above (Knowledge.isBlank_of _ _)
      · obtain ⟨later, hlater, hbelow⟩ := Merge.below_some_iff.1 hbelow.2
        refine ⟨later, ?_, hbelow⟩
        rw [Store.value?_eq, Store.knowledge?, knowledgeAt?, hcurrent, hrevisions, hlineage, hheld]
        exact hlater
      · rw [Store.knowledge?, knowledgeAt?, hlineage, hold] at hnone
        cases hnone
    · rw [Store.knowledge?, write_knowledgeAt?_of_ne hwrite hother, hcurrent, Store.knowledge?]

end Store

namespace Matching

theorem forceAll_eq {force : NodeId → Evaluating Outcome} {nodes : List NodeId}
    (hforce : ∀ node ∈ nodes, ∃ outcome, force node machine = .ok outcome machine) :
    forceAll force nodes machine = .ok () machine := by
  induction nodes with
  | nil => rfl
  | cons node nodes ih =>
    obtain ⟨outcome, hnode⟩ := hforce node List.mem_cons_self
    simp only [forceAll, run_bind, hnode]
    exact ih fun other hother ↦ hforce other (List.mem_cons_of_mem _ hother)

/-- What is visible to the bottom is not evaluated. -/
theorem within_of_endsWithin (hregular : program.Regular) (evaluate : Evaluator) {steps : Nat}
    (hends : machine.store.EndsWithin steps node) :
    within program evaluate steps node .everything machine = .ok (.plain node .done) machine := by
  induction steps generalizing node with
  | zero => exact hends.elim
  | succ steps ih =>
    obtain ⟨value, hvalue, hparts⟩ := hends
    rw [within_of_value _ _ hregular.isBind_everything hvalue,
      value_of_everything hregular.everything, run_bind,
      forceAll_eq fun part hpart ↦ ⟨_, ih (hparts part hpart)⟩]
    rfl

end Matching

namespace Rules

variable {tag : Symbol} {args : List ExprId} {nodes : List NodeId}

theorem registerAll_eq (hregistered : Registered machine.store env args nodes) :
    registerAll env args machine = .ok nodes machine := by
  induction args generalizing nodes with
  | nil =>
    cases nodes with
    | nil => rfl
    | cons node nodes => cases hregistered
  | cons arg args ih =>
    cases nodes with
    | nil => cases hregistered
    | cons node nodes =>
      simp only [Registered, List.map_cons, List.cons.injEq] at hregistered
      obtain ⟨hlookup, hrest⟩ := hregistered
      simp only [registerAll, run_bind, Machine.change_eq, Store.register_of_lookup hlookup, ih hrest]
      rfl

/-- The rule for a constructor whose arguments are visible evaluates nothing. -/
theorem construct_eq (hregular : program.Regular) (harity : program.arity? tag = some args.length)
    (hregistered : Registered machine.store env args nodes) {address : Address} {reach : Nat}
    (hwrite : Store.write address (.of .given (.constructor tag nodes)) machine.store = .ok node final)
    (hends : final.EndsWithin (final.size + program.demands.size + reach) node)
    (evaluate : Evaluator) :
    construct program reach evaluate env address tag args .everything machine =
      .ok (.plain node .done) ⟨final, machine.memo⟩ := by
  obtain ⟨constructor, hconstructor, harity⟩ := Option.map_eq_some_iff.1 harity
  have hmatch : Matching.node program reach evaluate node .everything ⟨final, machine.memo⟩ =
      .ok (.plain node .done) ⟨final, machine.memo⟩ :=
    Matching.within_of_endsWithin hregular evaluate hends
  simp only [construct, hconstructor, harity, ↓reduceIte, run_bind, registerAll_eq hregistered, given,
    Machine.perform_ok hwrite, hmatch]

end Rules

/-- An evaluation that remembers nothing does what the rule does. -/
theorem Evaluation.evaluate_of_step {settings : Settings} {outcome : Outcome} {memo : Memo}
    (hforgotten : machine.synchronize.memo.outcomes = ∅) (hdepth : 0 < settings.maxDepth)
    (hstep : ∀ evaluate, Rules.step program settings.reach evaluate env expr .everything
      machine.synchronize = .ok outcome ⟨final, memo⟩) :
    ∃ last, evaluate program settings env expr machine = .ok outcome.node last ∧
      last.store = final := by
  obtain ⟨depth, hdepth⟩ := Nat.exists_eq_add_of_lt hdepth
  have hremembered : machine.synchronize.remembered? settings ⟨env, expr, .everything⟩ = none := by
    simp [Machine.remembered?, hforgotten]
  have hsynchronized : machine.synchronize.synchronize = machine.synchronize :=
    Machine.synchronize_of_revision
      (by rw [Machine.revision_synchronize, Machine.store_synchronize])
  rw [← evaluate_synchronize]
  simp only [evaluate, under, hdepth, nested, run_bind,
    Machine.memoized_of_none _ hsynchronized hremembered, hstep]
  exact ⟨_, rfl, Machine.store_remember _ _ _ _⟩

namespace Session

variable {session : Session} {tag : Symbol} {args : List ExprId} {nodes : List NodeId}

/-- A constructor whose arguments are visible to the bottom is made of them as they are, if nothing has
been evaluated in the current revision yet.  It does not matter whether they are outdated. -/
theorem Corrected.evaluate_constructor (hcorrected : session.Corrected true)
    (hbuilt : session.program.Built) (hliteral : session.program.Literal)
    (hexpr : session.program.expr expr = .constructor tag args)
    (harity : session.program.arity? tag = some args.length)
    (hregistered : Registered session.store env args nodes)
    (hvisible : ∀ node ∈ nodes, session.store.EndsWithin session.store.size node)
    (hunknown : ∀ {node}, session.store.lookup? (.evaluation env expr) = some node →
      session.store.knowledge? node = none) (hdepth : 0 < session.settings.maxDepth) :
    ∃ node, (session.answer (.evaluate env expr)).1 = .ok (.node node) ∧
      session.store.knowledge? node = none ∧
      (session.answer (.evaluate env expr)).2.store.value? node = some (.constructor tag nodes) ∧
      ∀ {other}, other ≠ node → (session.answer (.evaluate env expr)).2.store.knowledge? other =
        session.store.knowledge? other := by
  have hregular := hbuilt.regular hliteral
  obtain ⟨⟨correct, hcorrects⟩, huntouched⟩ := hcorrected
  obtain ⟨hunwritten, hforgotten⟩ := huntouched rfl
  obtain ⟨node, final, hwrite, hsize, hnone, ⟨held, hvalue, hbelow⟩, hothers⟩ :=
    hunwritten.write_unknown hcorrects.stores.intact
      (hcorrects.stores.named hcorrects.sound.toTidy) hunknown .given (.constructor tag nodes)
  cases hbelow
  have hkept {other : NodeId} {value : Value} (hother : session.store.value? other = some value) :
      final.value? other = some value := by
    have hne : other ≠ node := by
      rintro rfl
      rw [Store.value?_eq, hnone] at hother
      cases hother
    rwa [Store.value?_eq, hothers hne, ← Store.value?_eq]
  have hends : final.EndsWithin
      (final.size + session.program.demands.size + session.settings.reach) node := by
    have hdemands := (Array.getElem?_eq_some_iff.1
      (hbuilt.primed.demands (show Program.initialDemands[0]? = some _ from rfl))).1
    have hparts : final.EndsWithin (session.store.size + 1) node :=
      ⟨_, hvalue, fun part hpart ↦ (hvisible part hpart).carry hkept⟩
    exact hparts.mono (by omega)
  have hstore : session.machine.synchronize.store = session.store := Machine.store_synchronize _
  rw [← hstore] at hregistered hwrite
  obtain ⟨last, hrun, rfl⟩ := Evaluation.evaluate_of_step hforgotten hdepth fun evaluate ↦ by
    rw [Rules.step_of_not_bind hregular.isBind_everything, hexpr]
    exact Rules.construct_eq hregular harity hregistered hwrite hends evaluate
  rw [answer_evaluate, hrun]
  exact ⟨node, rfl, hnone, hvalue, hothers⟩

end Session

/-! ## A pair of outdated parts -/

namespace Program

/-- A pair whose parts are both the same name. -/
def onePair : Program := (Builder.outcome (Builder.Call.pair ⟨0⟩ ⟨0⟩).run .oneName).2

theorem onePair_built : onePair.SteadilyBuilt := .call _ (.call _ .initial trivial) trivial

theorem onePair_literal : onePair.Literal := by
  apply Literal.of_groups_eq_empty
  exact initial_empty.2

theorem onePair_spec : ∃ symbol, onePair.symbol? "x" = some symbol ∧
    onePair.exprs = #[.var symbol, .constructor .pairTag [⟨0⟩, ⟨0⟩]] := by
  obtain ⟨symbol, hsymbol, hexprs⟩ := oneName_spec
  refine ⟨symbol, hsymbol, ?_⟩
  change oneName.exprs.push (.constructor .pairTag [⟨0⟩, ⟨0⟩]) = _
  rw [hexprs]
  rfl

end Program

/-- A pair of a name comes to the pair of what the name stands for. -/
theorem Reference.eval_pair (hregular : program.Regular) {context : Context} {tag name : Symbol}
    {part : ExprId} {datum : Datum} (hexpr : program.expr expr = .constructor tag [part, part])
    (harity : program.arity? tag = some 2) (hpart : program.expr part = .var name)
    (hlookup : context.lookup name = some (.thunk (.given datum)))
    (hatom : ∀ tag args, datum ≠ .constructor tag args) :
    eval program context expr .everything =
      pure ⟨.given (.constructor tag [.given datum, .given datum]), [], .done⟩ := by
  obtain ⟨constructor, hconstructor, hcount⟩ := Option.map_eq_some_iff.1 harity
  have hcount : constructor.arity = [part, part].length := hcount
  have hbind := hregular.isBind_everything
  have hforced : matchThunk program (.delayed context part) .everything =
      pure ⟨.given datum, [], .done⟩ := by
    rw [matchThunk_delayed, eval_of_not_bind hbind, hpart, byForm_var_thunk hlookup,
      matchThunk_given hbind, matchDatum_everything hregular.everything hatom]
  rw [eval_of_not_bind hbind, hexpr, byForm_constructor hconstructor, if_pos hcount,
    matchDatum_everything_constructor hregular.everything]
  simp only [List.map_cons, List.map_nil, forceAll_cons, forceAll_nil, hforced, pure_bind]

namespace Session

open Reference

variable {session : Session} {tag : Symbol}

namespace EditsName

variable {edited : Session} {source node : NodeId} {symbol : Symbol}
  (hedits : EditsName program session edited source env symbol node)
include hedits

/-- Nothing is visible of any other expression. -/
theorem unknown (hexpr : expr ≠ ⟨0⟩) {other : NodeId}
    (hlookup : edited.store.lookup? (.evaluation env expr) = some other) :
    edited.store.knowledge? other = none := by
  obtain ⟨⟨correct, hcorrects⟩, -⟩ := hedits.corrected
  have hnamed := hcorrects.stores.named hcorrects.sound.toTidy
  have haddress := (hnamed.ids.1 hlookup).2
  rw [Option.eq_none_iff_forall_ne_some]
  intro knowledge hknown
  have hother : other ≠ node := by
    rintro rfl
    cases haddress.symm.trans (hnamed.ids.1 hedits.lookup).2
    exact hexpr rfl
  cases haddress.symm.trans (hedits.known hknown hother)

/-- The name stands for the new text. -/
theorem lookup_context {context : Context} (hmeans : EnvMeans edited.store env context) :
    context.lookup symbol = some (.thunk (.given (.text "new"))) := by
  have hget := hedits.get?
  rw [Environments.get?_eq_lookup] at hget
  obtain ⟨hnone, -⟩ | ⟨binding, meaning, hbinding, hmeaning, hbound⟩ := hmeans.chain.lookup symbol
  · cases hget.symm.trans hnone
  · cases hget.symm.trans hbinding
    rw [hmeaning]
    cases hbound with
    | node hsource =>
      cases hsource with
      | delayed _ haddress _ _ => cases haddress.symm.trans hedits.address
      | given _ hvalue hdatum =>
        cases hvalue.symm.trans (Store.value?_of_knowledge hedits.new)
        cases hdatum
        rfl

/-- A pair of the name is made of the node that has the old text. -/
theorem evaluate_pair (hbuilt : program.Built) (hliteral : program.Literal) (hother : expr ≠ ⟨0⟩)
    (hexpr : program.expr expr = .constructor tag [⟨0⟩, ⟨0⟩]) (harity : program.arity? tag = some 2) :
    ∃ pair, (edited.answer (.evaluate env expr)).1 = .ok (.node pair) ∧
      (edited.answer (.evaluate env expr)).2.store.value? pair =
        some (.constructor tag [node, node]) ∧
      (edited.answer (.evaluate env expr)).2.store.value? node = some (.text "old") := by
  have hold := Store.value?_of_knowledge hedits.old
  have hends : edited.store.EndsWithin 1 node := ⟨_, hold, nofun⟩
  have hregistered : Registered edited.store env [⟨0⟩, ⟨0⟩] [node, node] := by
    simp [Registered, hedits.lookup]
  rw [← hedits.program_eq] at hbuilt hliteral hexpr harity
  obtain ⟨pair, hanswer, hnone, hpair, hothers⟩ := hedits.corrected.evaluate_constructor hbuilt
    hliteral hexpr harity hregistered
    (by simpa using hends.mono (Nat.zero_lt_of_lt (Store.contains_of_value hold)))
    (hedits.unknown hother) (hedits.settings_eq ▸ Nat.zero_lt_succ _)
  have hne : node ≠ pair := by
    rintro rfl
    cases hnone.symm.trans hedits.old
  refine ⟨pair, hanswer, hpair, ?_⟩
  rw [Store.value?_eq, hothers hne, ← Store.value?_eq, hold]

end EditsName

/-- A pair of a name is made of what the name was found to be before its input has changed, which is
not what the interpreter finds.  The run respects everything else that evaluation after edits asks
for. -/
theorem evaluate_outdated : ∃ session edited source env name pair final context,
    Session.new .onePair {} = .ok session ∧ session.Binds "old" source env ∧
    session.Edits true (editing session.library source env) ∧
    session.after (editing session.library source env) = edited ∧
    edited.answer (.evaluate env ⟨1⟩) = (.ok (.node pair), final) ∧
    final.store.value? pair = some (.constructor .pairTag [name, name]) ∧
    final.store.value? name = some (.text "old") ∧
    EnvMeans edited.store env context ∧
    Reference.eval .onePair context ⟨1⟩ .everything = pure ⟨.given
      (.constructor .pairTag [.given (.text "new"), .given (.text "new")]), [], .done⟩ ∧
    ¬Finds .onePair context ⟨1⟩ (.ok (.node pair), final) := by
  have hsteady := Program.onePair_built
  have harity := hsteady.orderly.builtins (.pairTag, 2) (by simp [Program.builtinArities])
  obtain ⟨symbol, hsymbol, hexprs⟩ := Program.onePair_spec
  have hexpr : Program.onePair.expr ⟨1⟩ = .constructor .pairTag [⟨0⟩, ⟨0⟩] := by
    rw [Program.expr, hexprs]
    rfl
  obtain ⟨session, bound, source, env, hbinds⟩ := exists_bindsName hsteady.built
    Program.onePair_literal hsymbol (by rw [hexprs]; rfl) "old"
  obtain ⟨edited, name, hedits⟩ := hbinds.editsName hsteady.built
  obtain ⟨pair, hanswer, hpair, hname⟩ :=
    hedits.evaluate_pair hsteady.built Program.onePair_literal (by decide) hexpr harity
  obtain ⟨⟨correct, hcorrects⟩, -⟩ := hedits.corrected
  obtain ⟨context, -, hmeans⟩ := hcorrects.exists_envMeans hedits.contains
  have heval := eval_pair hbinds.regular hexpr harity hbinds.expr (hedits.lookup_context hmeans)
    (by simp)
  refine ⟨session, edited, source, env, name, pair, _, context, hbinds.new_eq, hbinds.binds,
    hedits.edits, hedits.after_eq, Prod.ext hanswer rfl, hpair, hname, hmeans, heval, ?_⟩
  have hold : Inlines (edited.answer (.evaluate env ⟨1⟩)).2.store name (.text "old") :=
    .atom hname (by simp) .text
  rintro (⟨node, datum, hnode, hinlines, heval'⟩ | ⟨error, herror, -⟩)
  · cases hnode
    cases heval.symm.trans heval'
    have hsame := (Inlines.constructor hpair (.cons hold (.cons hold .nil))).unique hinlines
    simp at hsame
  · cases herror

end Session

end Whence
