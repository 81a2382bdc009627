import Whence.Proofs.Rules.Application

/-!
# All forms in company

The remaining rules, and with them one step of evaluation.  If the evaluation of parts keeps the
store sound and is followed by the companion, then so is the evaluation of the whole.
-/

namespace Whence

variable {program : Program} {companion : Companion program} {store start : Store} {env : EnvId}
  {expr : ExprId} {demand : DemandId} {evaluate evaluate' : Evaluator} {reach : Nat}

theorem Tied.registerAll {fail : Error → Store → Prop} (henv : store.envs.Contains env)
    (args : List ExprId) :
    Tied companion (Rules.registerAll env args) (Rules.registerAll env args) store
      (fun nodes final ↦ Registered final env args nodes ∧ Covers store final []) fail := by
  induction args generalizing store with
  | nil => exact Tied.of_pure ⟨rfl, .refl _ _⟩
  | cons arg args ih =>
    refine Tied.bind (Tied.register henv arg) ?_
    rintro node middle hgrows hsound ⟨hlookup, hcovers⟩
    refine Tied.bind (ih (hgrows.envs.contains henv)) ?_
    rintro nodes final hgrows' _ ⟨hregistered, hcovers'⟩
    refine Tied.of_pure ⟨?_, hcovers.trans hsound.toRooted hgrows' hcovers'⟩
    rw [Registered, List.map_cons, List.map_cons, hgrows'.lookup hlookup, hregistered]

theorem Tied.construct (hregular : program.Regular) (hmeets : Meets companion evaluate evaluate')
    {tag : Symbol} {args : List ExprId} (henv : store.envs.Contains env)
    (hform : program.expr expr = .constructor tag args) :
    Tied companion
      (Rules.construct program reach evaluate env (.evaluation env expr) tag args demand)
      (Rules.construct companion.other reach evaluate' env (.evaluation env expr) tag args demand)
      store (Evaluates program store env expr demand)
      (fun error final ↦ Fails program final (.form (.constructor tag args) env expr demand)
        error) := by
  unfold Rules.construct
  rw [companion.constructor?_eq, companion.name_eq]
  cases hconstructor : program.constructor? tag with
  | none => exact Tied.of_throw (.unknownConstructor hconstructor)
  | some constructor =>
    by_cases harity : constructor.arity = args.length
    · simp only [if_pos harity]
      refine Tied.bind (Tied.registerAll henv args) ?_
      rintro nodes middle hgrows hsound ⟨hregistered, hcovers⟩
      exact Tied.given hregular hmeets hsound (hgrows.envs.contains henv) hform
        (.constructor hconstructor harity hregistered) hcovers
    · simp only [if_neg harity]
      exact Tied.of_throw (.arityMismatch hconstructor harity)

/-- The library is complete, so that asking for a primitive changes nothing. -/
theorem Tied.primitive {fail : Error → Store → Prop} (primitive : Primitive) :
    Tied companion (Machine.perform (Store.primitive primitive))
      (Machine.perform (Store.primitive primitive)) store
      (fun node final ↦ store.library.lookup primitive = some node ∧ final = store) fail := by
  have hfound : ∀ {machine : Machine} {node : NodeId},
      machine.store.library.lookup primitive = some node →
        Machine.perform (Store.primitive primitive) machine = .ok node machine := by
    intro machine node hlookup
    exact Machine.perform_ok (Store.primitive_of_some hlookup)
  intro machine hstore hsound hconsistent
  subst hstore
  obtain ⟨node, hnode⟩ := hconsistent.stocked primitive
  rw [hfound hnode]
  refine ⟨fun heq ↦ ?_, fun heq ↦ (by cases heq)⟩
  cases heq
  refine ⟨Tied.ends_refl rfl hsound hconsistent, ⟨hnode, rfl⟩, fun _ {machine'} htie ↦ ?_⟩
  refine ⟨machine', hfound ?_, htie⟩
  rw [(companion.alike htie).library, hnode]

/-- What a sequence of definitions leaves behind. -/
abbrev Defined (program : Program) (store : Store) (env : EnvId) (definitions : List Definition)
    (result : EnvId × List DefinitionExplanation) (final : Store) : Prop :=
  Defines program final env definitions result.1 result.2 ∧ final.envs.Contains result.1 ∧
    Covers store final (result.2.flatMap DefinitionExplanation.dependencies)

theorem Tied.define (hregular : program.Regular) (definitions : List Definition)
    (hsound : Sound program store) (henv : store.envs.Contains env) :
    Tied companion (Rules.define program env definitions)
      (Rules.define companion.other env definitions) store (Defined program store env definitions)
      (fun error final ↦ Fails program final (.definitions env definitions) error) := by
  induction definitions generalizing store env with
  | nil => exact Tied.of_pure ⟨.nil, henv, .refl _ _⟩
  | cons definition rest ih =>
    cases definition with
    | value name bound =>
      refine Tied.bind (Tied.register henv bound) ?_
      rintro node store₁ hgrows₁ hsound₁ ⟨hlookup, hcovers₁⟩
      have henv₁ := hgrows₁.envs.contains henv
      refine Tied.bind (Tied.extend hsound₁ henv₁ name (hsound₁.contains_of_lookup hlookup)) ?_
      rintro inner store₂ hgrows₂ hsound₂ hbound
      have hentries : ∀ {final : Store}, store₂.Grows final →
          final.envs.entries inner = (name, .node node) :: final.envs.entries env :=
        fun hgrows ↦ hbound.later (hgrows₂.envs.contains henv₁) hgrows
      refine Tied.bind ((ih hsound₂ hbound.contains).mono (fun _ _ hdefined ↦ hdefined) ?_) ?_
      · intro error final hgrows _ hfail
        exact .defineValue ((hgrows₂.trans hgrows).lookup hlookup) (hentries hgrows) hfail
      · rintro ⟨outer, explanations⟩ final hgrows _ ⟨hdefines, hcontains, hcovers⟩
        refine Tied.of_pure ⟨.value ((hgrows₂.trans hgrows).lookup hlookup)
          (hgrows.envs.contains hbound.contains) (hentries hgrows) hdefines, hcontains, ?_⟩
        refine ((hcovers₁.trans hsound₁.toRooted hgrows₂ hbound.covers).trans hsound₂.toRooted hgrows
          hcovers).mono fun root hroot ↦ ?_
        exact List.mem_append_right _ hroot
    | primitive name op =>
      unfold Rules.define
      rw [companion.name_eq]
      cases hprimitive : Primitive.ofName? (program.name op) with
      | none => exact Tied.of_throw (.noPrimitive hprimitive)
      | some primitive =>
        refine Tied.bind (Tied.primitive primitive) ?_
        rintro node store₁ - - ⟨hlookup, rfl⟩
        have hnode : store₁.Contains node := Store.contains_of_knowledge
          (hsound.library (Environments.mem_of_lookup hlookup)).1
        refine Tied.bind (Tied.extend hsound henv name hnode) ?_
        rintro inner store₂ hgrows₂ hsound₂ hbound
        have hentries : ∀ {final : Store}, store₂.Grows final →
            final.envs.entries inner = (name, .node node) :: final.envs.entries env :=
          fun hgrows ↦ hbound.later (hgrows₂.envs.contains henv) hgrows
        have hlibrary : ∀ {final : Store}, store₂.Grows final →
            final.library.lookup primitive = some node := by
          intro final hgrows
          rw [(hgrows₂.trans hgrows).library, hlookup]
        refine Tied.bind ((ih hsound₂ hbound.contains).mono (fun _ _ hdefined ↦ hdefined) ?_) ?_
        · intro error final hgrows _ hfail
          exact .definePrimitive hprimitive (hlibrary hgrows) (hentries hgrows) hfail
        · rintro ⟨outer, explanations⟩ final hgrows _ ⟨hdefines, hcontains, hcovers⟩
          refine Tied.of_pure ⟨.primitive hprimitive (hlibrary hgrows)
            (hgrows.envs.contains hbound.contains) (hentries hgrows) hdefines, hcontains, ?_⟩
          refine (hbound.covers.trans hsound₂.toRooted hgrows hcovers).mono fun root hroot ↦ ?_
          exact List.mem_append_right _ hroot
    | group group =>
      refine Tied.bind (Tied.closeMembers ⟨env, group⟩ hregular hsound henv) ?_
      rintro members store₁ hgrows₁ hsound₁ ⟨⟨inner, hmembers⟩, hcovers₁⟩
      refine Tied.bind (Tied.closeGroup hsound₁ hmembers.1) ?_
      rintro inner' store₂ - - ⟨rfl, rfl⟩
      refine Tied.bind ((ih hsound₁ hmembers.1.contains).mono (fun _ _ hdefined ↦ hdefined) ?_) ?_
      · intro error final hgrows _ hfail
        exact .defineGroup (hmembers.1.grow hgrows) hfail
      · rintro ⟨outer, explanations⟩ final hgrows _ ⟨hdefines, hcontains, hcovers⟩
        exact Tied.of_pure ⟨.group (hmembers.grow hgrows) hdefines, hcontains,
          hcovers₁.trans hsound₁.toRooted hgrows hcovers⟩

theorem Tied.letIn (hmeets : Meets companion evaluate evaluate') {name : Symbol}
    {bound body : ExprId} (henv : store.envs.Contains env)
    (hform : program.expr expr = .letIn name bound body)
    (hbind : (program.demand demand).isBind = false) :
    Tied companion
      (Rules.byForm program reach evaluate (.letIn name bound body) env expr demand)
      (Rules.byForm companion.other reach evaluate' (.letIn name bound body) env expr demand) store
      (Evaluates program store env expr demand)
      (fun error final ↦ Fails program final (.form (.letIn name bound body) env expr demand)
        error) := by
  refine Tied.bind (Tied.register henv bound) ?_
  rintro node store₁ hgrows₁ hsound₁ ⟨hlookup, hcovers₁⟩
  have henv₁ := hgrows₁.envs.contains henv
  refine Tied.bind (Tied.extend hsound₁ henv₁ name (hsound₁.contains_of_lookup hlookup)) ?_
  intro inner store₂ hgrows₂ hsound₂ hbound
  have henv₂ := hgrows₂.envs.contains henv₁
  refine Tied.bind ((hmeets hbound.contains).mono (fun _ _ hevaluates ↦ hevaluates) ?_) ?_
  · intro error final hgrows _ hfail
    exact .letIn ((hgrows₂.trans hgrows).lookup hlookup) (hbound.later henv₂ hgrows) hfail
  · rintro outcome store₃ hgrows₃ hsound₃ ⟨hreached, hcovers₃⟩
    obtain ⟨value, hvalue⟩ := hreached.settled.exists_value hbind
    have hrule : Rule program store₃ (fun _ ↦ True) env expr (program.expr expr)
        (.letIn name node outcome.node) value := by
      rw [hform]
      exact .letIn ((hgrows₂.trans hgrows₃).lookup hlookup) (hgrows₃.envs.contains hbound.contains)
        (hbound.later henv₂ hgrows₃) (hreached.known hvalue)
    exact Tied.explain hsound₃ (hgrows₃.envs.contains henv₂) hvalue hrule hbind hreached.settled
      ((hcovers₁.trans hsound₁.toRooted hgrows₂ hbound.covers).trans hsound₂.toRooted hgrows₃
        hcovers₃) (by simp [Explanation.dependencies])

theorem Tied.letRec (hregular : program.Regular) (hmeets : Meets companion evaluate evaluate')
    {group : GroupId} {body : ExprId} (hsound : Sound program store)
    (henv : store.envs.Contains env) (hform : program.expr expr = .letRec group body)
    (hbind : (program.demand demand).isBind = false) :
    Tied companion (Rules.byForm program reach evaluate (.letRec group body) env expr demand)
      (Rules.byForm companion.other reach evaluate' (.letRec group body) env expr demand) store
      (Evaluates program store env expr demand)
      (fun error final ↦ Fails program final (.form (.letRec group body) env expr demand)
        error) := by
  refine Tied.bind (Tied.closeMembers ⟨env, group⟩ hregular hsound henv) ?_
  rintro members store₁ hgrows₁ hsound₁ ⟨⟨inner, hmembers⟩, hcovers₁⟩
  refine Tied.bind (Tied.closeGroup hsound₁ hmembers.1) ?_
  rintro inner' store₂ - - ⟨rfl, rfl⟩
  refine Tied.bind ((hmeets hmembers.1.contains).mono (fun _ _ hevaluates ↦ hevaluates) ?_) ?_
  · intro error final hgrows _ hfail
    exact .letRec (hmembers.1.grow hgrows) hfail
  · rintro outcome store₃ hgrows₃ hsound₃ ⟨hreached, hcovers₃⟩
    obtain ⟨value, hvalue⟩ := hreached.settled.exists_value hbind
    have hrule : Rule program store₃ (fun _ ↦ True) env expr (program.expr expr)
        (.letRec members outcome.node) value := by
      rw [hform]
      exact .letRec (hmembers.grow hgrows₃) (hreached.known hvalue)
    exact Tied.explain hsound₃ ((hgrows₁.trans hgrows₃).envs.contains henv) hvalue hrule hbind
      hreached.settled (hcovers₁.trans hsound₁.toRooted hgrows₃ hcovers₃)
      (by simp [Explanation.dependencies])

theorem Tied.matching (hmeets : Meets companion evaluate evaluate') {scrutinee : ExprId}
    {cases : DemandId} (henv : store.envs.Contains env)
    (hform : program.expr expr = .matching scrutinee cases)
    (hbind : (program.demand demand).isBind = false) :
    Tied companion (Rules.byForm program reach evaluate (.matching scrutinee cases) env expr demand)
      (Rules.byForm companion.other reach evaluate' (.matching scrutinee cases) env expr demand)
      store (Evaluates program store env expr demand)
      (fun error final ↦ Fails program final (.form (.matching scrutinee cases) env expr demand)
        error) := by
  refine Tied.bind ((hmeets henv).mono (fun _ _ hevaluates ↦ hevaluates)
    fun _ _ hfail ↦ .scrutinee hfail) ?_
  rintro matched store₁ hgrows₁ hsound₁ ⟨hmatched, hcovers₁⟩
  refine Tied.bind (Tied.bodyOf matched cases fun hnext ↦ .noCase hmatched hnext) ?_
  rintro body store₂ - - ⟨hnext, rfl⟩
  have henv₁ := hgrows₁.envs.contains henv
  refine Tied.bind (Tied.concat hsound₁ henv₁ (hmatched.settled.nodes hsound₁.toTidy
    (hsound₁.contains_of_lookup hmatched.lookup))) ?_
  intro inner store₃ hgrows₃ hsound₃ hbound
  have hmatched₃ := hmatched.grow hsound₁.envs hgrows₃
  have hentries : ∀ {final : Store}, store₃.Grows final →
      final.envs.entries inner = final.envs.entries matched.env ++ final.envs.entries env := by
    intro final hgrows
    rw [hbound.later (hgrows₃.envs.contains henv₁) hgrows,
      (hgrows₃.trans hgrows).envs.entries_eq (hmatched.settled.contains_env hsound₁.envs)]
  refine Tied.bind ((hmeets hbound.contains).mono (fun _ _ hevaluates ↦ hevaluates) ?_) ?_
  · intro error final hgrows _ hfail
    exact .matching (hmatched₃.grow hsound₃.envs hgrows) hnext (hentries hgrows) hfail
  · rintro outcome store₄ hgrows₄ hsound₄ ⟨hreached, hcovers₄⟩
    obtain ⟨value, hvalue⟩ := hreached.settled.exists_value hbind
    have hmatched₄ := hmatched₃.grow hsound₃.envs hgrows₄
    have hrule : Rule program store₄ (fun _ ↦ True) env expr (program.expr expr)
        (.matching matched.node matched.inspected outcome.node) value := by
      rw [hform]
      exact .matching hmatched₄.lookup hmatched₄.settled hnext
        (hgrows₄.envs.contains hbound.contains) (hentries hgrows₄) (hreached.known hvalue)
    refine Tied.explain hsound₄ ((hgrows₃.trans hgrows₄).envs.contains henv₁) hvalue hrule hbind
      hreached.settled ((hcovers₁.trans hsound₁.toRooted hgrows₃ hbound.covers).trans
        hsound₃.toRooted hgrows₄ hcovers₄) fun root hroot ↦ ?_
    simp only [List.append_nil, List.mem_append, List.mem_singleton] at hroot
    simp only [Explanation.dependencies, List.mem_append, List.mem_singleton]
    obtain rfl | rfl := hroot
    · exact .inl (.inl rfl)
    · exact .inr rfl

theorem Tied.defs (hregular : program.Regular) (hmeets : Meets companion evaluate evaluate')
    {definitions : List Definition} {body : ExprId} (hsound : Sound program store)
    (henv : store.envs.Contains env) (hform : program.expr expr = .defs definitions body)
    (hbind : (program.demand demand).isBind = false) :
    Tied companion (Rules.byForm program reach evaluate (.defs definitions body) env expr demand)
      (Rules.byForm companion.other reach evaluate' (.defs definitions body) env expr demand) store
      (Evaluates program store env expr demand)
      (fun error final ↦ Fails program final (.form (.defs definitions body) env expr demand)
        error) := by
  refine Tied.bind ((Tied.define hregular definitions hsound henv).mono
    (fun _ _ hdefined ↦ hdefined) fun _ _ hfail ↦ .definitions hfail) ?_
  rintro ⟨inner, explanations⟩ store₁ hgrows₁ hsound₁ ⟨hdefines, hinner, hcovers₁⟩
  refine Tied.bind ((hmeets hinner).mono (fun _ _ hevaluates ↦ hevaluates) ?_) ?_
  · intro error final hgrows _ hfail
    exact .defs (hdefines.grow hgrows (hgrows₁.envs.contains henv)) hfail
  · rintro outcome store₂ hgrows₂ hsound₂ ⟨hreached, hcovers₂⟩
    obtain ⟨value, hvalue⟩ := hreached.settled.exists_value hbind
    have hrule : Rule program store₂ (fun _ ↦ True) env expr (program.expr expr)
        (.defs explanations outcome.node) value := by
      rw [hform]
      exact .defs (hdefines.grow hgrows₂ (hgrows₁.envs.contains henv)) (hreached.known hvalue)
    exact Tied.explain hsound₂ ((hgrows₁.trans hgrows₂).envs.contains henv) hvalue hrule hbind
      hreached.settled (hcovers₁.trans hsound₁.toRooted hgrows₂ hcovers₂) (fun _ hroot ↦ hroot)

/-! ## One step -/

theorem Tied.byForm (hregular : program.Regular) (hmeets : Meets companion evaluate evaluate')
    (hsound : Sound program store) (henv : store.envs.Contains env)
    (hbind : (program.demand demand).isBind = false) :
    Tied companion (Rules.byForm program reach evaluate (program.expr expr) env expr demand)
      (Rules.byForm companion.other reach evaluate' (program.expr expr) env expr demand) store
      (Evaluates program store env expr demand)
      (fun error final ↦ Fails program final (.form (program.expr expr) env expr demand)
        error) := by
  cases hform : program.expr expr with
  | number value => exact Tied.given hregular hmeets hsound henv hform .number (.refl _ _)
  | text value => exact Tied.given hregular hmeets hsound henv hform .text (.refl _ _)
  | constructor tag args => exact Tied.construct hregular hmeets henv hform
  | function parameter => exact Tied.function hregular hmeets hsound henv hform
  | var name => exact Tied.lookup hregular hmeets hsound henv hform (.inl rfl) hbind
  | op name => exact Tied.lookup hregular hmeets hsound henv hform (.inr rfl) hbind
  | app function argument => exact Tied.apply hregular hmeets henv hform hbind
  | letIn name bound body => exact Tied.letIn hmeets henv hform hbind
  | letRec group body => exact Tied.letRec hregular hmeets hsound henv hform hbind
  | matching scrutinee cases => exact Tied.matching hmeets henv hform hbind
  | defs definitions body => exact Tied.defs hregular hmeets hsound henv hform hbind

theorem Rules.step_of_bind {name : Symbol} {next : Next}
    (hdemand : program.demand demand = .bind name next) :
    Rules.step program reach evaluate env expr demand = (do
      let node ← Machine.change fun store ↦ store.register (.evaluation env expr)
      Matching.bind node name next) := by
  simp only [Rules.step, hdemand]

theorem Rules.step_of_not_bind (hbind : (program.demand demand).isBind = false) :
    Rules.step program reach evaluate env expr demand =
      Rules.byForm program reach evaluate (program.expr expr) env expr demand := by
  unfold Rules.step
  split
  · rename_i hdemand
    simp [hdemand, Demand.isBind] at hbind
  · rfl

theorem Meets.step (hregular : program.Regular) (hmeets : Meets companion evaluate evaluate')
    (reach : Nat) :
    Meets companion (Rules.step program reach evaluate)
      (Rules.step companion.other reach evaluate') := by
  intro store env expr demand henv
  refine Tied.with_sound fun hsound ↦ ?_
  cases hbind : (program.demand demand).isBind with
  | true =>
    obtain ⟨name, next, hdemand⟩ := Demand.eq_bind hbind
    rw [Rules.step_of_bind hdemand, Rules.step_of_bind ((companion.demand_eq demand).trans hdemand)]
    refine Tied.bind (Tied.register henv expr) ?_
    rintro node middle hgrows hsound ⟨hlookup, hcovers⟩
    refine (Tied.bindNode hsound (hsound.contains_of_lookup hlookup) hdemand).mono ?_
      fun _ _ hfail ↦ hfail
    rintro outcome final hgrows' _ ⟨rfl, hsettled, hcovers'⟩
    exact ⟨⟨hgrows'.lookup hlookup, hsettled⟩, hcovers.trans hsound.toRooted hgrows' hcovers'⟩
  | false =>
    rw [Rules.step_of_not_bind hbind, Rules.step_of_not_bind (by rwa [companion.demand_eq])]
    refine ((Tied.byForm hregular hmeets hsound henv hbind).swap_right ?_ ?_).mono
      (fun _ _ hevaluates ↦ hevaluates) fun _ _ hfail ↦ .form hbind hfail
    -- The other program has the same expression where the first run has found a value.
    · rintro outcome final hsound' ⟨hreached, -⟩ hagree
      obtain ⟨value, hvalue⟩ := hreached.settled.exists_value hbind
      rw [companion.expr_of_value hsound'.toTidy hagree
        (hsound'.address_of_lookup hreached.lookup) hvalue]
    · intro hstrict
      rw [Program.expr, companion.exprs_of_strict hstrict, Program.expr]

end Whence
