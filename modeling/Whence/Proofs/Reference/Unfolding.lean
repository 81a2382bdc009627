import Whence.Proofs.Derivation.Failure
import Whence.Proofs.Reference.Meaning

/-!
# Unfolding the plain language

The interpreter does what its rules say, as a plan asks finitely many questions.  On thunks and data
that stand for nodes and values of a store it accepts, refuses and takes apart what the evaluator
accepts, refuses and takes apart.
-/

namespace Whence

theorem Demand.not_bind_of_accepts {demand : Demand} {value : Value} {next : Next}
    (haccepts : demand.accepts? value = some next) : demand.isBind = false := by
  cases demand with
  | bind _ _ => cases haccepts
  | _ => rfl

theorem Demand.not_bind_of_rejects {demand : Demand} {value : Value}
    (hrejects : demand.rejects value = true) : demand.isBind = false := by
  cases demand with
  | bind _ _ => cases hrejects
  | _ => rfl

namespace Reference

section

variable {α β : Type} {program : Program} {first second : Thunk → DemandId → Computation Result}
  {thunk : Thunk} {demand : DemandId}

/-- The second computation comes to what the first one comes to, if to anything. -/
def Approximates (first second : Computation α) : Prop :=
  ∀ {result : Except Error α}, first.run = some result → second.run = some result

theorem run_bind_eq_some {first : Computation α} {rest : α → Computation β}
    {result : Except Error β} :
    (first >>= rest).run = some result ↔
      (∃ error, first.run = some (.error error) ∧ .error error = result) ∨
      ∃ found, first.run = some (.ok found) ∧ (rest found).run = some result := by
  rw [ExceptT.run_bind]
  cases first.run with
  | none => simp
  | some found =>
    cases found with
    | ok found => simp
    | error error => simp

theorem Plan.run_approximates
    (hasked : ∀ thunk demand, Approximates (first thunk demand) (second thunk demand))
    (plan : Plan α) : Approximates (plan.run first) (plan.run second) := by
  induction plan with
  | answer _ => exact id
  | ask thunk demand rest ih =>
    intro result hrun
    rw [Plan.run, run_bind_eq_some] at hrun ⊢
    obtain ⟨error, herror, rfl⟩ | ⟨found, hfound, hrest⟩ := hrun
    · exact .inl ⟨error, hasked thunk demand herror, rfl⟩
    · exact .inr ⟨found, hasked thunk demand hfound, ih found hrest⟩

theorem matchWithin_succ (program : Program) (depth : Nat) (thunk : Thunk) (demand : DemandId) :
    Approximates (matchWithin program depth thunk demand)
      (matchWithin program (depth + 1) thunk demand) := by
  induction depth generalizing thunk demand with
  | zero =>
    intro result hrun
    cases hrun
  | succ depth ih => exact Plan.run_approximates ih _

theorem matchWithin_mono {depth depth' : Nat} (hle : depth ≤ depth') (thunk : Thunk)
    (demand : DemandId) :
    Approximates (matchWithin program depth thunk demand)
      (matchWithin program depth' thunk demand) := by
  induction hle with
  | refl => exact id
  | step _ ih => exact fun hrun ↦ matchWithin_succ program _ thunk demand (ih hrun)

/-- The interpreter comes to what it comes to within some depth. -/
theorem matchThunk_eq_some {result : Except Error Result} :
    (matchThunk program thunk demand).run = some result ↔
      ∃ depth, (matchWithin program depth thunk demand).run = some result := by
  constructor
  · intro hrun
    rw [matchThunk] at hrun
    split at hrun
    case isTrue hends => exact ⟨_, hrun⟩
    case isFalse => cases hrun
  · rintro ⟨depth, hrun⟩
    have hends : ∃ depth, (matchWithin program depth thunk demand).run.isSome :=
      ⟨depth, Option.isSome_of_eq_some hrun⟩
    rw [matchThunk, dif_pos hends]
    obtain ⟨found, hfound⟩ := Option.isSome_iff_exists.1 hends.choose_spec
    rw [hfound]
    obtain hle | hle := Nat.le_total depth hends.choose
    · exact hfound.symm.trans (matchWithin_mono hle _ _ hrun)
    · exact (matchWithin_mono hle _ _ hfound).symm.trans hrun

theorem matchWithin_approximates (program : Program) (depth : Nat) (thunk : Thunk)
    (demand : DemandId) :
    Approximates (matchWithin program depth thunk demand) (matchThunk program thunk demand) :=
  fun hrun ↦ matchThunk_eq_some.2 ⟨depth, hrun⟩

/-- What a plan comes to it comes to within some depth, as it asks finitely many questions. -/
theorem Plan.run_eq_some (plan : Plan α) {result : Except Error α} :
    (plan.run (Reference.matchThunk program)).run = some result ↔
      ∃ depth, (plan.run (matchWithin program depth)).run = some result := by
  constructor
  · intro hrun
    induction plan with
    | answer _ => exact ⟨0, hrun⟩
    | ask thunk demand rest ih =>
      rw [Plan.run, run_bind_eq_some] at hrun
      obtain ⟨error, herror, rfl⟩ | ⟨found, hfound, hrest⟩ := hrun
      · obtain ⟨depth, hdepth⟩ := matchThunk_eq_some.1 herror
        exact ⟨depth, run_bind_eq_some.2 (.inl ⟨error, hdepth, rfl⟩)⟩
      · obtain ⟨depth, hdepth⟩ := matchThunk_eq_some.1 hfound
        obtain ⟨depth', hdepth'⟩ := ih found hrest
        have hrest' := run_approximates (matchWithin_mono (Nat.le_max_right depth depth')) _ hdepth'
        exact ⟨max depth depth', run_bind_eq_some.2
          (.inr ⟨found, matchWithin_mono (Nat.le_max_left _ _) _ _ hdepth, hrest'⟩)⟩
  · rintro ⟨depth, hrun⟩
    exact run_approximates (matchWithin_approximates program depth) plan hrun

/-- The interpreter does what its rules say. -/
theorem matchThunk_eq (program : Program) (thunk : Thunk) (demand : DemandId) :
    matchThunk program thunk demand =
      (Plan.matchThunk program thunk demand).run (matchThunk program) := by
  refine Option.ext fun result ↦ matchThunk_eq_some.trans (Iff.trans ?_ (Plan.run_eq_some _).symm)
  constructor
  · rintro ⟨depth, hrun⟩
    cases depth with
    | zero => cases hrun
    | succ depth => exact ⟨depth, hrun⟩
  · rintro ⟨depth, hrun⟩
    exact ⟨depth + 1, hrun⟩

end

variable {program : Program} {store : Store} {context : Context} {expr : ExprId} {demand : DemandId}

/-- A plan is carried out step by step. -/
theorem Plan.run_bind {α β : Type} (force : Thunk → DemandId → Computation Result) (plan : Plan α)
    (next : α → Plan β) :
    (plan >>= next).run force = plan.run force >>= fun result ↦ (next result).run force := by
  induction plan with
  | answer result =>
    cases result with
    | ok result => rfl
    | error error => rfl
  | ask thunk demand rest ih =>
    calc (Plan.ask thunk demand rest >>= next).run force
      _ = force thunk demand >>= fun found ↦ (rest found >>= next).run force := rfl
      _ = force thunk demand >>= fun found ↦
          (rest found).run force >>= fun result ↦ (next result).run force := by simp only [ih]
      _ = (Plan.ask thunk demand rest).run force >>= fun result ↦ (next result).run force :=
        (bind_assoc _ _ _).symm

theorem Plan.run_answer {α : Type} (force : Thunk → DemandId → Computation Result)
    (result : Except Error α) :
    (Plan.answer result).run force = ExceptT.mk (some result) := rfl

theorem Plan.run_force (force : Thunk → DemandId → Computation Result) (thunk : Thunk)
    (demand : DemandId) : (Plan.force thunk demand).run force = force thunk demand :=
  bind_pure (force thunk demand)

theorem Plan.run_eval :
    (Plan.eval context expr demand).run (Reference.matchThunk program) =
      Reference.eval program context expr demand :=
  run_force _ _ _

theorem throw_bind {α β : Type} (error : Error) (rest : α → Computation β) :
    (throw error >>= rest) = throw error := rfl

theorem mk_ok {α : Type} (result : α) :
    (ExceptT.mk (some (.ok result)) : Computation α) = pure result := rfl

theorem mk_error {α : Type} (error : Error) :
    (ExceptT.mk (some (.error error)) : Computation α) = throw error := rfl

theorem eval_of_not_bind (hbind : (program.demand demand).isBind = false) :
    eval program context expr demand =
      byForm program context expr (program.expr expr) demand := by
  rw [eval, matchThunk_eq, Plan.matchThunk.eq_def]
  cases hdemand : program.demand demand with
  | bind name next =>
    rw [hdemand] at hbind
    cases hbind
  | _ => rfl

theorem matchThunk_of_bind {name : Symbol} {next : Next}
    (hdemand : program.demand demand = .bind name next) (thunk : Thunk) :
    matchThunk program thunk demand = pure ⟨thunk, [(name, .thunk thunk)], next⟩ := by
  rw [matchThunk_eq, Plan.matchThunk.eq_def, hdemand]
  rfl

theorem matchThunk_delayed :
    matchThunk program (.delayed context expr) demand = eval program context expr demand :=
  rfl

theorem matchThunk_given (hbind : (program.demand demand).isBind = false) (datum : Datum) :
    matchThunk program (.given datum) demand = matchDatum program datum demand := by
  rw [matchThunk_eq, Plan.matchThunk.eq_def]
  cases hdemand : program.demand demand with
  | bind name next =>
    rw [hdemand] at hbind
    cases hbind
  | _ => rfl

theorem ValueMeans.describe {value : Value} {datum : Datum} (hmeans : ValueMeans store value datum)
    (symbols : SymbolTable) : datum.form.describe symbols = value.describe symbols := by
  cases hmeans <;> rfl

/-- A value without parts is its own form. -/
theorem ValueMeans.of_flat {value : Value} (hflat : value.Flat) :
    ValueMeans store value (.ofForm value) := by
  cases hflat with
  | number _ => exact .number
  | text _ => exact .text
  | constructor _ => exact .constructor .nil

theorem Datum.form_ofForm {value : Value} (hflat : value.Flat) : (ofForm value).form = value := by
  cases hflat <;> rfl

theorem matchDatum_of_accepts {value : Value} {datum : Datum} {next : Next}
    (hmeans : ValueMeans store value datum)
    (haccepts : (program.demand demand).accepts? value = some next) :
    matchDatum program datum demand = pure ⟨.given datum, [], next⟩ := by
  rw [matchDatum, Plan.matchDatum.eq_def]
  generalize program.demand demand = asked at haccepts
  cases asked <;> cases hmeans <;> cases haccepts <;> rfl

theorem matchDatum_of_rejects {value : Value} {datum : Datum} (hmeans : ValueMeans store value datum)
    (hrejects : (program.demand demand).rejects value = true) :
    matchDatum program datum demand = throw (Matching.mismatch program demand value) := by
  have hmismatch : mismatch program demand datum = Matching.mismatch program demand value := by
    rw [mismatch, hmeans.describe, Matching.mismatch]
  rw [← hmismatch, matchDatum, Plan.matchDatum.eq_def]
  generalize program.demand demand = asked at hrejects
  cases hmeans with
  | constructor hargs =>
    cases asked with
    | constructor cases =>
      simp only [Demand.rejects, Option.isNone_iff_eq_none] at hrejects
      simp only [hrejects]
      rfl
    | _ => first | rfl | cases hrejects
  | _ => cases asked <;> first | rfl | cases hrejects

theorem matchDatum_everything {datum : Datum} {next : Next}
    (hdemand : program.demand demand = .everything next)
    (hatom : ∀ tag args, datum ≠ .constructor tag args) :
    matchDatum program datum demand = pure ⟨.given datum, [], next⟩ := by
  rw [matchDatum, Plan.matchDatum.eq_def, hdemand]
  cases datum with
  | constructor tag args => exact absurd rfl (hatom tag args)
  | _ => rfl

theorem matchDatum_everything_constructor {tag : Symbol} {args : List Thunk} {next : Next}
    (hdemand : program.demand demand = .everything next) :
    matchDatum program (.constructor tag args) demand =
      (do
        let forced ← forceAll program args
        pure ⟨.given (.constructor tag forced), [], next⟩) := by
  rw [matchDatum, Plan.matchDatum.eq_def, hdemand]
  exact Plan.run_bind _ _ _

theorem matchDatum_constructor {tag : Symbol} {args : List Thunk} {next : Next}
    {cases : List (Symbol × Next)} (hdemand : program.demand demand = .constructor cases)
    (hcase : cases.lookup tag = some next) :
    matchDatum program (.constructor tag args) demand =
      (do
        let (bound, next) ← matchArgs program args.length [] next args
        pure ⟨.given (.constructor tag args), bound, next⟩) := by
  rw [matchDatum, Plan.matchDatum.eq_def, hdemand]
  simp only [hcase]
  exact Plan.run_bind _ _ _

theorem matchArgs_nil {count : Nat} {bound : Context} {next : Next} :
    matchArgs program count bound next [] = pure (bound, next) :=
  rfl

theorem matchArgs_cons {count : Nat} {bound : Context} {next : Next} {demand : DemandId}
    (hnext : next = .demand demand) (arg : Thunk) (args : List Thunk) :
    matchArgs program count bound next (arg :: args) =
      (do
        let matched ← matchThunk program arg demand
        matchArgs program count (matched.bound ++ bound) matched.next args) := by
  rw [hnext, matchArgs, Plan.matchArgs, Plan.run_bind, Plan.run_force]
  rfl

theorem matchArgs_stops {count : Nat} {bound : Context} {next : Next}
    (hnext : ∀ demand, next ≠ .demand demand) (arg : Thunk) (args : List Thunk) :
    matchArgs program count bound next (arg :: args) =
      throw (.demandMismatch (toString count ++ " argument(s)") "a pattern that stops early") := by
  cases next with
  | demand demand => exact absurd rfl (hnext demand)
  | _ => rfl

theorem forceAll_nil : forceAll program [] = pure [] := rfl

theorem forceAll_cons (arg : Thunk) (args : List Thunk) :
    forceAll program (arg :: args) =
      (do
        let forced ← matchThunk program arg .everything
        let rest ← forceAll program args
        pure (forced.value :: rest)) := by
  simp only [forceAll, Plan.forceAll, Plan.run_bind, Plan.run_force]
  rfl

/-! ## Forms -/

section

variable {function argument : ExprId} {applied : Result}

theorem byForm_op (name : Symbol) :
    byForm program context expr (.op name) demand =
      byForm program context expr (.var name) demand :=
  rfl

theorem byForm_unknown {tag : Symbol} {args : List ExprId} (hnone : program.constructor? tag = none) :
    byForm program context expr (.constructor tag args) demand =
      throw (.unknownConstructor (program.name tag)) := by
  rw [byForm, Plan.byForm, hnone]
  rfl

theorem byForm_constructor {tag : Symbol} {args : List ExprId} {constructor : Constructor}
    (hsome : program.constructor? tag = some constructor) :
    byForm program context expr (.constructor tag args) demand =
      if constructor.arity = args.length then
        matchDatum program (.constructor tag (args.map (Thunk.delayed context))) demand
      else throw (.arityMismatch (program.name tag) constructor.arity args.length) := by
  rw [byForm, Plan.byForm, hsome]
  dsimp only
  split <;> rfl

theorem byForm_app :
    byForm program context expr (.app function argument) demand =
      (do
        let applied ← eval program context function .function
        (Plan.apply program context argument demand applied.value).run (matchThunk program)) := by
  rw [byForm, Plan.byForm, Plan.run_bind, Plan.run_eval]

theorem byForm_var (name : Symbol) :
    byForm program context expr (.var name) demand =
      (Plan.lookup program context name demand).run (matchThunk program) :=
  rfl

theorem byForm_var_none {name : Symbol} (hnone : context.lookup name = none) :
    byForm program context expr (.var name) demand =
      throw (.nameNotFound (program.name name)) := by
  rw [byForm_var, Plan.lookup, hnone]
  rfl

theorem byForm_var_thunk {name : Symbol} {thunk : Thunk}
    (hsome : context.lookup name = some (.thunk thunk)) :
    byForm program context expr (.var name) demand = matchThunk program thunk demand := by
  rw [byForm_var, Plan.lookup, hsome]
  exact Plan.run_force _ _ _

theorem byForm_var_recursive {name : Symbol} {outer : Context} {group : GroupId} {position : Nat}
    {entry : GroupEntry} (hsome : context.lookup name = some (.recursive outer group position))
    (hentry : (program.group group).entries[position]? = some entry) :
    byForm program context expr (.var name) demand =
      matchDatum program (.closure (closeGroup program outer group) entry.function) demand := by
  rw [byForm_var, Plan.lookup, hsome]
  simp only [hentry]
  rfl

theorem byForm_letIn (name : Symbol) (bound body : ExprId) :
    byForm program context expr (.letIn name bound body) demand =
      eval program ((name, .thunk (.delayed context bound)) :: context) body demand :=
  Plan.run_eval

theorem byForm_letRec (group : GroupId) (body : ExprId) :
    byForm program context expr (.letRec group body) demand =
      eval program (closeGroup program context group) body demand :=
  Plan.run_eval

theorem byForm_matching (scrutinee : ExprId) (cases : DemandId) :
    byForm program context expr (.matching scrutinee cases) demand =
      (do
        let matched ← eval program context scrutinee cases
        let body ← ExceptT.mk (some (bodyOf program matched.next cases))
        eval program (matched.bound ++ context) body demand) := by
  simp only [byForm, Plan.byForm, Plan.run_bind, Plan.run_eval, Plan.run_answer]

theorem byForm_defs (definitions : List Definition) (body : ExprId) :
    byForm program context expr (.defs definitions body) demand =
      (do
        let inner ← ExceptT.mk (some (define program context definitions))
        eval program inner body demand) := by
  simp only [byForm, Plan.byForm, Plan.run_bind, Plan.run_eval, Plan.run_answer]

theorem byForm_app_closure {inner : Context} {literal : ExprId} {parameter : DemandId}
    (happlied : eval program context function .function = pure applied)
    (hvalue : applied.value = .given (.closure inner literal))
    (hliteral : program.expr literal = .function parameter) :
    byForm program context expr (.app function argument) demand =
      (do
        let matched ← eval program context argument parameter
        let body ← ExceptT.mk (some (bodyOf program matched.next parameter))
        eval program (matched.bound ++ inner) body demand) := by
  rw [byForm_app, happlied, pure_bind, hvalue, Plan.apply]
  simp only [hliteral, Plan.run_bind, Plan.run_eval, Plan.run_answer]

theorem byForm_app_literal {inner : Context} {literal : ExprId}
    (happlied : eval program context function .function = pure applied)
    (hvalue : applied.value = .given (.closure inner literal))
    (hliteral : ∀ parameter, program.expr literal ≠ .function parameter) :
    byForm program context expr (.app function argument) demand =
      throw (.demandMismatch "function" (program.expr literal).kind) := by
  rw [byForm_app, happlied, pure_bind, hvalue, Plan.apply]
  generalize program.expr literal = form at hliteral
  cases form with
  | function parameter => exact absurd rfl (hliteral parameter)
  | _ => rfl

theorem byForm_app_primitive {datum : Datum} {kind : Operand}
    (happlied : eval program context function .function = pure applied)
    (hvalue : applied.value = .given datum) (hkind : datum.operand? = some kind) :
    byForm program context expr (.app function argument) demand =
      (do
        let operand ← eval program context argument kind.demand
        let result ← ExceptT.mk (some (applyPrimitive datum operand.value))
        matchDatum program result demand) := by
  rw [byForm_app, happlied, pure_bind, hvalue]
  cases datum with
  | closure _ _ => cases hkind
  | _ =>
    rw [Plan.apply.eq_def]
    simp only [hkind, Plan.run_bind, Plan.run_eval, Plan.run_answer]
    rfl

end

end Reference

end Whence
