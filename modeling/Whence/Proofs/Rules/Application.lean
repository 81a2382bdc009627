import Whence.Proofs.Rules.Basic

/-!
# Application in company

The operator is evaluated as far as it takes to see a function.  A closure is applied by matching
the argument and evaluating the body in what the match has bound over the environment of the closure;
a primitive by evaluating the operand and computing.
-/

namespace Whence

variable {program : Program} {companion : Companion program} {store start : Store} {env : EnvId}
  {expr : ExprId} {demand : DemandId} {evaluate evaluate' : Evaluator} {reach : Nat}

/-- A demand on the kind of a value has been met. -/
theorem Settles.accepted {allowed : NodeId → Prop} {node : NodeId} {outcome : Outcome}
    (hsettles : Settles program store allowed node demand outcome)
    (hbind : (program.demand demand).isBind = false)
    (heverything : ∀ next, program.demand demand ≠ .everything next)
    (hconstructor : ∀ cases, program.demand demand ≠ .constructor cases) :
    ∃ value next, store.value? node = some value ∧
      (program.demand demand).accepts? value = some next := by
  cases hsettles with
  | bind hdemand _ _ => simp [hdemand, Demand.isBind] at hbind
  | everything hdemand _ => exact absurd hdemand (heverything _)
  | kind _ hvalue haccepts => exact ⟨_, _, hvalue, haccepts⟩
  | constructor hdemand _ _ _ _ => exact absurd hdemand (hconstructor _)

theorem Reached.known {value : Value} {outcome : Outcome}
    (hreached : Reached program store env expr demand outcome)
    (hvalue : store.value? outcome.node = some value) :
    Known store env expr outcome.node value :=
  ⟨hreached.lookup, trivial, hvalue⟩

/-- An operator evaluates to a closure or a primitive. -/
theorem Reached.function (hregular : program.Regular) {outcome : Outcome}
    (hreached : Reached program store env expr .function outcome) :
    (∃ closure, Known store env expr outcome.node (.closure closure)) ∨
      ∃ primitive, Known store env expr outcome.node (.primitive primitive) := by
  obtain ⟨value, next, hvalue, haccepts⟩ := hreached.settled.accepted
    (by simp [hregular.function, Demand.isBind]) (by simp [hregular.function])
    (by simp [hregular.function])
  rw [hregular.function] at haccepts
  cases value with
  | closure closure => exact .inl ⟨closure, hreached.lookup, trivial, hvalue⟩
  | primitive primitive => exact .inr ⟨primitive, hreached.lookup, trivial, hvalue⟩
  | _ => cases haccepts

/-- An operand has a value of the kind that the primitive asks for. -/
theorem Reached.operand (hregular : program.Regular) {operand : Operand} {outcome : Outcome}
    (hreached : Reached program store env expr operand.demand outcome) :
    ∃ value next, Known store env expr outcome.node value ∧
      (program.demand operand.demand).accepts? value = some next := by
  have hdemand : program.demand operand.demand = .number .done ∨
      program.demand operand.demand = .text .done := by
    cases operand
    · exact .inl hregular.number
    · exact .inr hregular.text
  obtain ⟨value, next, hvalue, haccepts⟩ := hreached.settled.accepted
    (by obtain hdemand | hdemand := hdemand <;> simp [hdemand, Demand.isBind])
    (by obtain hdemand | hdemand := hdemand <;> simp [hdemand])
    (by obtain hdemand | hdemand := hdemand <;> simp [hdemand])
  exact ⟨value, next, ⟨hreached.lookup, trivial, hvalue⟩, haccepts⟩

theorem Evaluated.later {store' : Store} (hgrows : store.Grows store') {node : NodeId} {value : Value}
    (hknown : Known store env expr node value) : Known store' env expr node value :=
  hknown.grow hgrows fun _ _ ↦ trivial

theorem Tied.bodyOf {fail : Error → Store → Prop} (outcome : Outcome) (demand : DemandId)
    (hfail : (∀ body, outcome.next ≠ .body body) →
      fail (.demandMismatch (program.describe demand) "a pattern without a body") store) :
    Tied companion (Rules.bodyOf program outcome demand)
      (Rules.bodyOf companion.other outcome demand) store
      (fun body final ↦ outcome.next = .body body ∧ final = store) fail := by
  simp only [Rules.bodyOf, companion.describe_eq]
  cases hnext : outcome.next with
  | body body => exact Tied.of_pure ⟨rfl, rfl⟩
  | done => exact Tied.of_throw (hfail (by simp [hnext]))
  | demand id => exact Tied.of_throw (hfail (by simp [hnext]))

/-- The members that an application records. -/
theorem Tied.scopeMembers {fail : Error → Store → Prop} (hregular : program.Regular)
    (hsound : Sound program store) (scope : Option Scope)
    (hscope : ∀ inner ∈ scope, store.envs.Contains inner.env) :
    Tied companion (Rules.scopeMembers program scope) (Rules.scopeMembers companion.other scope) store
      (fun members final ↦ ScopeMembers program final members scope ∧
        Covers store final (members.map Member.closure)) fail := by
  cases scope with
  | none => exact Tied.of_pure ⟨rfl, .refl _ _⟩
  | some scope =>
    exact (Tied.closeMembers scope hregular hsound (hscope scope rfl)).mono
      (fun _ _ hmembers ↦ hmembers) fun _ _ hfail ↦ hfail

theorem Tied.applyClosure (hregular : program.Regular) (hmeets : Meets companion evaluate evaluate')
    {function argument : ExprId} {applied : NodeId} {closure : Closure}
    (hsound : Sound program store) (henv : store.envs.Contains env)
    (hform : program.expr expr = .app function argument)
    (hbind : (program.demand demand).isBind = false)
    (happlied : Known store env function applied (.closure closure))
    (hcovers : Covers start store [applied]) :
    Tied companion
      (Rules.applyClosure program evaluate env (.evaluation env expr) applied closure argument demand)
      (Rules.applyClosure companion.other evaluate' env (.evaluation env expr) applied closure argument
        demand) store
      (Evaluates program start env expr demand)
      (fun error final ↦ Fails program final (.form (.app function argument) env expr demand)
        error) := by
  obtain ⟨hclosure, hscope⟩ := hsound.within happlied.value
  unfold Rules.applyClosure
  refine Tied.congr_right ?_ fun {machine machine'} hstore hsound hagree htie ↦ by
    rw [companion.expr_of_closure hsound.toTidy hagree happlied.value]
  cases hliteral : program.expr closure.function with
  | function parameter =>
    refine Tied.bind ((hmeets henv).mono (fun _ _ hevaluates ↦ hevaluates) ?_) ?_
    · intro error final hgrows _ hfail
      exact .argument (happlied.later hgrows) hliteral hfail
    rintro matched store₁ hgrows₁ hsound₁ ⟨hmatched, hcovers₁⟩
    refine Tied.bind (Tied.bodyOf matched parameter fun hnext ↦
      .noBody (happlied.later hgrows₁) hliteral hmatched hnext) ?_
    rintro body store₂ - - ⟨hnext, rfl⟩
    refine Tied.bind (Tied.scopeMembers hregular hsound₁ closure.scope fun inner hinner ↦
      hgrows₁.envs.contains (hscope inner hinner)) ?_
    rintro members store₃ hgrows₃ hsound₃ ⟨hmembers, hcovers₃⟩
    have hmatched₃ := hmatched.grow hsound₁.envs hgrows₃
    have hclosure₃ := (hgrows₁.trans hgrows₃).envs.contains hclosure
    refine Tied.bind (Tied.concat hsound₃ hclosure₃ (hmatched₃.settled.nodes hsound₃.toTidy
      (hsound₃.contains_of_lookup hmatched₃.lookup))) ?_
    intro inner store₄ hgrows₄ hsound₄ hbound
    have hmatched₄ := hmatched₃.grow hsound₃.envs hgrows₄
    have hentries₄ : store₄.envs.entries inner =
        store₄.envs.entries matched.env ++ store₄.envs.entries closure.env := by
      rw [hbound.entries, hgrows₄.envs.entries_eq (hmatched₃.settled.contains_env hsound₃.envs)]
    have happlied₄ := happlied.later ((hgrows₁.trans hgrows₃).trans hgrows₄)
    -- The chain of the inner environment stays what it is.
    have hentries : ∀ {final : Store}, store₄.Grows final → final.envs.entries inner =
        final.envs.entries matched.env ++ final.envs.entries closure.env := by
      intro final hgrows
      rw [hgrows.envs.entries_eq hbound.contains,
        hgrows.envs.entries_eq (hmatched₄.settled.contains_env hsound₄.envs),
        hgrows.envs.entries_eq (hgrows₄.envs.contains hclosure₃), hentries₄]
    refine Tied.bind ((hmeets hbound.contains).mono (fun _ _ hevaluates ↦ hevaluates) ?_) ?_
    · intro error final hgrows _ hfail
      exact .body (happlied₄.later hgrows) hliteral (hmatched₄.grow hsound₄.envs hgrows) hnext
        (hentries hgrows) hfail
    rintro outcome store₅ hgrows₅ hsound₅ ⟨hreached, hcovers₅⟩
    obtain ⟨value, hvalue⟩ := hreached.settled.exists_value hbind
    have hmatched₅ := hmatched₄.grow hsound₄.envs hgrows₅
    have hrule : Rule program store₅ (fun _ ↦ True) env expr (program.expr expr)
        (.application applied matched.node members matched.inspected outcome.node) value := by
      rw [hform]
      exact .closure (happlied₄.later hgrows₅) hliteral hmatched₅.lookup hmatched₅.settled hnext
        (hmembers.grow (hgrows₄.trans hgrows₅))
        ((hgrows₄.trans hgrows₅).envs.contains hclosure₃) (hgrows₅.envs.contains hbound.contains)
        (hentries hgrows₅) ⟨hreached.lookup, trivial, hvalue⟩
    have hall := (((hcovers.trans hsound.toRooted hgrows₁ hcovers₁).trans hsound₁.toRooted hgrows₃
      hcovers₃).trans hsound₃.toRooted hgrows₄ hbound.covers).trans hsound₄.toRooted hgrows₅ hcovers₅
    refine (Tied.explain hsound₅
      (((hgrows₁.trans hgrows₃).trans (hgrows₄.trans hgrows₅)).envs.contains henv) hvalue hrule
      hbind hreached.settled hall ?_).mono (fun _ _ hevaluates ↦ hevaluates) fun _ _ hfail ↦ hfail
    intro root hroot
    simp only [List.append_nil, List.mem_append, List.mem_singleton] at hroot
    simp only [Explanation.dependencies, List.mem_append, List.mem_cons, List.not_mem_nil, or_false]
    obtain ((rfl | rfl) | hroot) | rfl := hroot
    · exact .inl (.inl (.inl (.inl rfl)))
    · exact .inl (.inl (.inl (.inr rfl)))
    · exact .inl (.inl (.inr hroot))
    · exact .inr rfl
  | _ =>
    refine Tied.of_throw ?_
    rw [← hliteral]
    exact Fails.literal happlied (by simp [hliteral])

theorem Tied.knownValue {fail : Error → Store → Prop} {node : NodeId} {value : Value}
    (hvalue : store.value? node = some value) :
    Tied companion (Rules.knownValue node) (Rules.knownValue node) store
      (fun result final ↦ result = value ∧ final = store) fail := by
  refine Tied.inspect (fun hstore _ _ htie ↦ ?_) ?_
  · rw [hvalue]
    exact companion.value htie (hstore ▸ hvalue)
  · rw [hvalue]
    exact Tied.of_pure ⟨rfl, rfl⟩

/-- The first operand of a partial application may have lost its value. -/
theorem Tied.firstOperand {fail : Error → Store → Prop} {holder first : NodeId} {op : BinaryOp}
    (hholder : store.value? holder = some (.primitive (.partially op first)))
    (hfail : store.value? first = none → fail (.unevaluated (store.address first)) store) :
    Tied companion (Rules.knownValue first) (Rules.knownValue first) store
      (fun value final ↦ store.value? first = some value ∧ final = store) fail := by
  cases hvalue : store.value? first with
  | some value => exact (Tied.knownValue hvalue).mono (fun _ _ ⟨hresult, hfinal⟩ ↦
      ⟨congrArg some hresult.symm, hfinal⟩) fun _ _ hfail ↦ hfail
  | none =>
    refine Tied.inspect (fun hstore hsound hagree htie ↦ ?_) ?_
    · subst hstore
      rw [hvalue]
      exact companion.partially htie hsound.toTidy hagree hholder hvalue
    · rw [hvalue]
      refine Tied.inspect (fun hstore _ _ htie ↦ ?_) (Tied.of_throw (hfail hvalue))
      rw [(companion.alike htie).address, hstore]

theorem Tied.ofExcept {α : Type} {fail : Error → Store → Prop} (result : Except Error α)
    (hfail : ∀ error, result = .error error → fail error store) :
    Tied companion (MonadExcept.ofExcept result) (MonadExcept.ofExcept result) store
      (fun value final ↦ result = .ok value ∧ final = store) fail := by
  cases result with
  | ok value => exact Tied.of_pure ⟨rfl, rfl⟩
  | error error => exact Tied.of_throw (hfail error rfl)

theorem Tied.compute {function argument : ExprId} {applied operand : NodeId}
    {primitive : PrimitiveValue} {right : Value} {next : Next}
    (happlied : Known store env function applied (.primitive primitive))
    (hoperand : Known store env argument operand right)
    (haccepts : (program.demand primitive.operand.demand).accepts? right = some next) :
    Tied companion (Rules.compute applied operand right primitive)
      (Rules.compute applied operand right primitive) store
      (fun knowledge final ↦ final = store ∧ ∃ explanation value,
        knowledge = .of explanation value ∧
        Computes store (fun _ ↦ True) applied operand right primitive explanation value)
      (fun error final ↦ Fails program final (.form (.app function argument) env expr demand)
        error) := by
  cases primitive with
  | unary op =>
    refine Tied.bind (Tied.ofExcept _ fun error herror ↦
      Fails.unary happlied hoperand haccepts herror) ?_
    rintro value final - - ⟨hvalue, rfl⟩
    exact Tied.of_pure ⟨rfl, _, _, rfl, .unary hvalue⟩
  | binary op => exact Tied.of_pure ⟨rfl, _, _, rfl, .binary⟩
  | partially op first =>
    refine Tied.bind (Tied.firstOperand happlied.value fun hnone ↦
      Fails.firstOperand happlied hoperand hnone) ?_
    rintro left final - - ⟨hleft, rfl⟩
    refine Tied.bind (Tied.ofExcept _ fun error herror ↦
      Fails.binary happlied hoperand haccepts hleft herror) ?_
    rintro value final - - ⟨hvalue, rfl⟩
    exact Tied.of_pure ⟨rfl, _, _, rfl, .partially trivial hleft hvalue⟩

theorem Computes.dependencies {allowed : NodeId → Prop} {applied operand : NodeId} {right : Value}
    {primitive : PrimitiveValue} {explanation : Explanation} {value : Value}
    (hcomputes : Computes store allowed applied operand right primitive explanation value) :
    applied ∈ explanation.dependencies ∧ operand ∈ explanation.dependencies := by
  cases hcomputes <;> simp [Explanation.dependencies]

theorem Tied.applyPrimitive (hregular : program.Regular)
    (hmeets : Meets companion evaluate evaluate') {function argument : ExprId} {applied : NodeId}
    {primitive : PrimitiveValue} (hsound : Sound program store) (henv : store.envs.Contains env)
    (hform : program.expr expr = .app function argument)
    (happlied : Known store env function applied (.primitive primitive))
    (hcovers : Covers start store [applied]) :
    Tied companion
      (Rules.applyPrimitive program reach evaluate env (.evaluation env expr) applied primitive
        argument demand)
      (Rules.applyPrimitive companion.other reach evaluate' env (.evaluation env expr) applied
        primitive argument demand) store
      (Evaluates program start env expr demand)
      (fun error final ↦ Fails program final (.form (.app function argument) env expr demand)
        error) := by
  refine Tied.bind ((hmeets henv).mono (fun _ _ hevaluates ↦ hevaluates) ?_) ?_
  · intro error final hgrows _ hfail
    exact .operand (happlied.later hgrows) hfail
  rintro outcome store₁ hgrows₁ hsound₁ ⟨hreached, hcovers₁⟩
  obtain ⟨right, next, hoperand, haccepts⟩ := hreached.operand hregular
  have happlied₁ := happlied.later hgrows₁
  refine Tied.bind (Tied.knownValue hoperand.value) ?_
  rintro right' store₂ - - ⟨rfl, rfl⟩
  have hwrite : Tied companion
      (do
        let knowledge ← Rules.compute applied outcome.node right' primitive
        Machine.perform (Store.write (.evaluation env expr) knowledge))
      (do
        let knowledge ← Rules.compute applied outcome.node right' primitive
        Machine.perform (Store.write (.evaluation env expr) knowledge)) store₂
      (fun node final ↦ final.lookup? (.evaluation env expr) = some node ∧
        (∃ value, final.value? node = some value) ∧ Covers start final [node])
      (fun error final ↦ Fails program final (.form (.app function argument) env expr demand)
        error) := by
    refine Tied.bind (Tied.compute happlied₁ hoperand haccepts) ?_
    rintro knowledge store₃ - - ⟨rfl, explanation, value, rfl, hcomputes⟩
    have hrule : Rule program store₃ (fun _ ↦ True) env expr (program.expr expr) explanation
        value := by
      rw [hform]
      exact .primitive happlied₁ hoperand haccepts hcomputes
    refine (Tied.write hsound₁ (hgrows₁.envs.contains henv) hrule).mono ?_ fun _ _ hfail ↦ hfail
    intro node final hgrows hsound' hwritten
    refine ⟨hwritten.lookup, ⟨value, Store.value?_of_knowledge hwritten.knowledge⟩, ?_⟩
    refine ((hcovers.trans hsound.toRooted hgrows₁ hcovers₁).trans hsound₁.toRooted hgrows
      hwritten.covers).through hsound'.toTidy fun root hroot ↦ ?_
    rw [Store.references_of_knowledge hwritten.knowledge]
    obtain ⟨happlied, hoperand⟩ := hcomputes.dependencies
    simp only [List.mem_append, List.mem_singleton] at hroot ⊢
    obtain (rfl | rfl) | rfl := hroot
    · exact .inr (.inr happlied)
    · exact .inr (.inr hoperand)
    · exact .inl rfl
  have hmatch : Tied companion _ _ store₂ (Evaluates program start env expr demand) _ :=
    Tied.matchWritten reach hregular hmeets hwrite
  simp only [bind_assoc] at hmatch
  exact hmatch

theorem Tied.apply (hregular : program.Regular) (hmeets : Meets companion evaluate evaluate')
    {function argument : ExprId} (henv : store.envs.Contains env)
    (hform : program.expr expr = .app function argument)
    (hbind : (program.demand demand).isBind = false) :
    Tied companion
      (Rules.apply program reach evaluate env (.evaluation env expr) function argument demand)
      (Rules.apply companion.other reach evaluate' env (.evaluation env expr) function argument
        demand) store
      (Evaluates program store env expr demand)
      (fun error final ↦ Fails program final (.form (.app function argument) env expr demand)
        error) := by
  refine Tied.bind ((hmeets henv).mono (fun _ _ hevaluates ↦ hevaluates) ?_) ?_
  · intro error final _ _ hfail
    exact .function hfail
  rintro outcome middle hgrows hsound' ⟨hreached, hcovers⟩
  have henv' := hgrows.envs.contains henv
  obtain ⟨closure, happlied⟩ | ⟨primitive, happlied⟩ := hreached.function hregular
  · refine Tied.inspect (fun hstore _ _ htie ↦ ?_) ?_
    · rw [happlied.value]
      exact companion.value htie (hstore ▸ happlied.value)
    · rw [happlied.value]
      exact Tied.applyClosure hregular hmeets hsound' henv' hform hbind happlied hcovers
  · refine Tied.inspect (fun hstore _ _ htie ↦ ?_) ?_
    · rw [happlied.value]
      exact companion.value htie (hstore ▸ happlied.value)
    · rw [happlied.value]
      exact Tied.applyPrimitive hregular hmeets hsound' henv' hform happlied hcovers

end Whence
