import Whence.Proofs.Reference.Agreement

/-!
# Failures agree with the plain language

Whatever fails on a store fails with the same error in the interpreter.  The proof follows the
derivation of the failure.
-/

namespace Whence.Reference

variable {program : Program} {store : Store} {context : Context} {env : EnvId}

/-- The interpreter fails at the counterpart of the task. -/
def FailsAlike (program : Program) (store : Store) (error : Error) : Task → Prop
  | .eval env expr demand => ∀ {context}, ChainMeans store (store.envs.entries env) context →
      eval program context expr demand = throw error
  | .form form env expr demand => program.expr expr = form →
      (program.demand demand).isBind = false →
      ∀ {context}, ChainMeans store (store.envs.entries env) context →
        eval program context expr demand = throw error
  | .definitions env definitions => ∀ {context},
      ChainMeans store (store.envs.entries env) context →
        define program context definitions = .error error
  | .node node demand => ∀ {thunk}, NodeMeans store node thunk →
      matchThunk program thunk demand = throw error
  | .args count outcome args => ∀ {thunks bound}, NodesMean store args thunks →
      ChainMeans store (store.envs.entries outcome.env) bound →
        matchArgs program count bound outcome.next thunks = throw error
  | .all parts => ∀ {thunks}, NodesMean store parts thunks → forceAll program thunks = throw error

theorem computed_of_known (hregular : program.Regular) (htidy : Tidy program store) {expr : ExprId}
    {node : NodeId} {value : Value} (hknown : Known store env expr node value)
    (hchain : ChainMeans store (store.envs.entries env) context) :
    Computed program store value (eval program context expr) :=
  computed_of_evaluated htidy (fun node _ ↦ agrees hregular htidy node) hknown
    (hchain.envMeans htidy hknown.lookup)

/-- The operator of an application was found to be a closure. -/
theorem eval_closure (hregular : program.Regular) (htidy : Tidy program store) {expr : ExprId}
    {node : NodeId} {closure : Closure} (hknown : Known store env expr node (.closure closure))
    (hchain : ChainMeans store (store.envs.entries env) context) :
    ∃ inner, ChainMeans store (store.envs.entries closure.env) inner ∧
      eval program context expr .function =
        pure ⟨.given (.closure inner closure.function), [], .done⟩ := by
  obtain ⟨datum, hdatum, heval⟩ :=
    eval_function hregular (computed_of_known hregular htidy hknown hchain) rfl
  cases hdatum with
  | closure _ hinner => exact ⟨_, hinner, heval⟩

/-- The operator of an application was found to be a primitive; the application asks for an operand
and applies it. -/
theorem byForm_primitive (hregular : program.Regular) (htidy : Tidy program store)
    {function argument expr : ExprId} {node : NodeId} {primitive : PrimitiveValue} {demand : DemandId}
    (hknown : Known store env function node (.primitive primitive))
    (hchain : ChainMeans store (store.envs.entries env) context) :
    ∃ datum, ValueMeans store (.primitive primitive) datum ∧
      byForm program context expr (.app function argument) demand =
        (do
          let operand ← eval program context argument primitive.operand.demand
          let result ← ExceptT.mk (some (applyPrimitive datum operand.value))
          matchDatum program result demand) := by
  obtain ⟨datum, hdatum, heval⟩ :=
    eval_function hregular (computed_of_known hregular htidy hknown hchain) rfl
  exact ⟨datum, hdatum, byForm_app_primitive heval rfl hdatum.operand?⟩

/-- The operand of a primitive was found. -/
theorem eval_known_operand (hregular : program.Regular) (htidy : Tidy program store) {kind : Operand}
    {expr : ExprId} {node : NodeId} {value : Value} {next : Next}
    (hknown : Known store env expr node value)
    (haccepts : (program.demand kind.demand).accepts? value = some next)
    (hchain : ChainMeans store (store.envs.entries env) context) :
    value.Flat ∧
      eval program context expr kind.demand = pure ⟨.given (.ofForm value), [], next⟩ :=
  eval_operand hregular (computed_of_known hregular htidy hknown hchain) haccepts

theorem matches_of_settled (hregular : program.Regular) (htidy : Tidy program store) {node : NodeId}
    {demand : DemandId} {outcome : Outcome} {thunk : Thunk}
    (hsettled : Settled program store node demand outcome) (hnode : NodeMeans store node thunk) :
    ∃ result, matchThunk program thunk demand = pure result ∧ Matches store outcome result :=
  matches_of_settles hregular htidy.envs (fun node _ ↦ agrees hregular htidy node) hsettled hnode

theorem matches_of_reached (hregular : program.Regular) (htidy : Tidy program store) {expr : ExprId}
    {demand : DemandId} {outcome : Outcome}
    (hreached : Reached program store env expr demand outcome)
    (hchain : ChainMeans store (store.envs.entries env) context) :
    ∃ result, eval program context expr demand = pure result ∧ Matches store outcome result := by
  obtain ⟨result, hresult, hmatches⟩ := matches_of_settled hregular htidy hreached.settled
    ((hchain.envMeans htidy hreached.lookup).node htidy hreached.lookup)
  exact ⟨result, matchThunk_delayed.symm.trans hresult, hmatches⟩

theorem Matches.noBody {outcome : Outcome} {result : Result} (hmatches : Matches store outcome result)
    (hnext : ∀ body, outcome.next ≠ .body body) (demand : DemandId) :
    bodyOf program result.next demand =
      .error (.demandMismatch (program.describe demand) "a pattern without a body") := by
  rw [← hmatches.next] at hnext
  generalize result.next = next at hnext
  cases next with
  | body body => exact absurd rfl (hnext body)
  | _ => rfl

theorem Matches.body {outcome : Outcome} {result : Result} (hmatches : Matches store outcome result)
    {body : ExprId} (hnext : outcome.next = .body body) (demand : DemandId) :
    bodyOf program result.next demand = .ok body := by
  rw [hmatches.next, hnext, bodyOf]

/-- A form fails if the interpreter's rule for it does. -/
theorem FailsAlike.of_byForm {form : Expr} {expr : ExprId} {demand : DemandId} {error : Error}
    (hbyForm : (program.demand demand).isBind = false → ∀ {context},
      ChainMeans store (store.envs.entries env) context →
        byForm program context expr form demand = throw error) :
    FailsAlike program store error (.form form env expr demand) := by
  intro hform hbind context hchain
  rw [eval_of_not_bind hbind, hform]
  exact hbyForm hbind hchain

theorem ChainMeans.lookup_none {name : Symbol}
    (hchain : ChainMeans store (store.envs.entries env) context)
    (hnone : store.envs.get? env name = none) : context.lookup name = none := by
  obtain ⟨-, hcontext⟩ | ⟨binding, meaning, hlookup, -, -⟩ := hchain.lookup name
  · exact hcontext
  · rw [Environments.get?_eq_lookup, hlookup] at hnone
    cases hnone

theorem NodesMean.length_eq {nodes : List NodeId} {thunks : List Thunk}
    (hnodes : NodesMean store nodes thunks) : thunks.length = nodes.length := by
  induction nodes generalizing thunks with
  | nil =>
    cases hnodes
    rfl
  | cons node nodes ih =>
    cases hnodes with
    | cons _ hnodes => exact congrArg Nat.succ (ih hnodes)

theorem failsAlike (hregular : program.Regular) (htidy : Tidy program store) {task : Task}
    {error : Error} (hfails : Fails program store task error) :
    FailsAlike program store error task := by
  induction hfails with
  | form hbind _ ih => exact ih rfl hbind
  | value hlookup _ ih =>
    intro _ _ context hchain
    rw [← matchThunk_delayed]
    exact ih ((hchain.envMeans htidy hlookup).node htidy hlookup)
  | unknownConstructor hnone =>
    refine .of_byForm fun _ _ _ ↦ ?_
    exact byForm_unknown hnone
  | arityMismatch hsome harity =>
    refine .of_byForm fun _ _ _ ↦ ?_
    rw [byForm_constructor hsome, if_neg harity]
  | unboundVar hnone =>
    refine .of_byForm fun _ _ hchain ↦ ?_
    exact byForm_var_none (hchain.lookup_none hnone)
  | unboundOp hnone =>
    refine .of_byForm fun _ _ hchain ↦ ?_
    rw [byForm_op, byForm_var_none (hchain.lookup_none hnone)]
  | @var name env expr demand binding target error hbinding hresolves _ ih =>
    refine .of_byForm fun hbind _ hchain ↦ ?_
    obtain ⟨thunk, hnode, hname⟩ :=
      byForm_var_of_resolves hregular htidy hchain hbinding hresolves expr
    rw [hname hbind]
    exact ih hnode
  | @op name env expr demand binding target error hbinding hresolves _ ih =>
    refine .of_byForm fun hbind _ hchain ↦ ?_
    obtain ⟨thunk, hnode, hname⟩ :=
      byForm_var_of_resolves hregular htidy hchain hbinding hresolves expr
    rw [byForm_op, hname hbind]
    exact ih hnode
  | function _ ih =>
    refine .of_byForm fun _ _ hchain ↦ ?_
    rw [byForm_app, ih hchain, throw_bind]
  | literal hknown hliteral =>
    refine .of_byForm fun _ _ hchain ↦ ?_
    obtain ⟨inner, -, happlied⟩ := eval_closure hregular htidy hknown hchain
    exact byForm_app_literal happlied rfl hliteral
  | argument hknown hliteral _ ih =>
    refine .of_byForm fun _ _ hchain ↦ ?_
    obtain ⟨inner, -, happlied⟩ := eval_closure hregular htidy hknown hchain
    rw [byForm_app_closure happlied rfl hliteral, ih hchain, throw_bind]
  | noBody hknown hliteral hreached hnext =>
    refine .of_byForm fun _ _ hchain ↦ ?_
    obtain ⟨inner, -, happlied⟩ := eval_closure hregular htidy hknown hchain
    obtain ⟨result, hresult, hmatches⟩ := matches_of_reached hregular htidy hreached hchain
    rw [byForm_app_closure happlied rfl hliteral, hresult, pure_bind, hmatches.noBody hnext, mk_error,
      throw_bind]
  | body hknown hliteral hreached hnext hentries _ ih =>
    refine .of_byForm fun _ _ hchain ↦ ?_
    obtain ⟨inner, hinner, happlied⟩ := eval_closure hregular htidy hknown hchain
    obtain ⟨result, hresult, hmatches⟩ := matches_of_reached hregular htidy hreached hchain
    rw [byForm_app_closure happlied rfl hliteral, hresult, pure_bind, hmatches.body hnext, mk_ok,
      pure_bind]
    exact ih (hentries ▸ hmatches.bound.chain.append hinner)
  | operand hknown _ ih =>
    refine .of_byForm fun _ _ hchain ↦ ?_
    obtain ⟨datum, -, happlied⟩ := byForm_primitive hregular htidy hknown hchain
    rw [happlied, ih hchain, throw_bind]
  | unary hknown hoperand haccepts happly =>
    refine .of_byForm fun _ _ hchain ↦ ?_
    obtain ⟨datum, hdatum, happlied⟩ := byForm_primitive hregular htidy hknown hchain
    obtain ⟨hflat, heval⟩ := eval_known_operand hregular htidy hoperand haccepts hchain
    cases hdatum
    rw [PrimitiveValue.operand] at happlied
    rw [happlied, heval, pure_bind, applyPrimitive, Datum.form_ofForm hflat, happly]
    rfl
  | firstOperand hknown _ hnone =>
    refine .of_byForm fun _ _ hchain ↦ ?_
    obtain ⟨datum, hdatum, -⟩ := computed_of_known hregular htidy hknown hchain
    -- What the operator stands for has the first operand.
    cases hdatum with
    | partially hvalue _ =>
      rw [hnone] at hvalue
      cases hvalue
  | binary hknown hoperand haccepts hfirst happly =>
    refine .of_byForm fun _ _ hchain ↦ ?_
    obtain ⟨datum, hdatum, happlied⟩ := byForm_primitive hregular htidy hknown hchain
    obtain ⟨hflat, heval⟩ := eval_known_operand hregular htidy hoperand haccepts hchain
    cases hdatum with
    | partially hfirst' hflat' =>
      rw [hfirst] at hfirst'
      cases hfirst'
      rw [PrimitiveValue.operand] at happlied
      rw [happlied, heval, pure_bind, applyPrimitive, Datum.form_ofForm hflat',
        Datum.form_ofForm hflat, happly]
      rfl
  | letIn hlookup hentries _ ih =>
    refine .of_byForm fun _ _ hchain ↦ ?_
    rw [byForm_letIn]
    exact ih (hentries ▸ .node ((hchain.envMeans htidy hlookup).node htidy hlookup) hchain)
  | letRec hcloses _ ih =>
    refine .of_byForm fun _ _ hchain ↦ ?_
    rw [byForm_letRec]
    exact ih (EnvMeans.closeGroup ⟨hcloses.outer, hchain⟩ hcloses).chain
  | scrutinee _ ih =>
    refine .of_byForm fun _ _ hchain ↦ ?_
    rw [byForm_matching, ih hchain, throw_bind]
  | noCase hreached hnext =>
    refine .of_byForm fun _ _ hchain ↦ ?_
    obtain ⟨result, hresult, hmatches⟩ := matches_of_reached hregular htidy hreached hchain
    rw [byForm_matching, hresult, pure_bind, hmatches.noBody hnext, mk_error, throw_bind]
  | matching hreached hnext hentries _ ih =>
    refine .of_byForm fun _ _ hchain ↦ ?_
    obtain ⟨result, hresult, hmatches⟩ := matches_of_reached hregular htidy hreached hchain
    rw [byForm_matching, hresult, pure_bind, hmatches.body hnext, mk_ok, pure_bind]
    exact ih (hentries ▸ hmatches.bound.chain.append hchain)
  | definitions _ ih =>
    refine .of_byForm fun _ _ hchain ↦ ?_
    rw [byForm_defs, ih hchain, mk_error, throw_bind]
  | defs hdefines _ ih =>
    refine .of_byForm fun _ _ hchain ↦ ?_
    obtain ⟨inner, hdefine, hinner⟩ := define_of_defines htidy hdefines hchain
    rw [byForm_defs, hdefine, mk_ok, pure_bind]
    exact ih hinner
  | defineValue hlookup hentries _ ih =>
    intro context hchain
    rw [define]
    exact ih (hentries ▸ .node ((hchain.envMeans htidy hlookup).node htidy hlookup) hchain)
  | noPrimitive hnone =>
    intro context _
    rw [define, hnone]
  | definePrimitive hsome hlookup hentries _ ih =>
    intro context hchain
    rw [define, hsome]
    exact ih (hentries ▸ .node (nodeMeans_of_library htidy hlookup) hchain)
  | defineGroup hcloses _ ih =>
    intro context hchain
    rw [define]
    exact ih (EnvMeans.closeGroup ⟨hcloses.outer, hchain⟩ hcloses).chain
  | mismatch hvalue hrejects =>
    intro thunk hnode
    obtain ⟨datum, hdatum, hmatch⟩ := agrees hregular htidy _ hvalue hnode
    rw [hmatch (Demand.not_bind_of_rejects hrejects), matchDatum_of_rejects hdatum hrejects]
  | evaluation haddress _ ih =>
    intro thunk hnode
    cases hnode with
    | delayed _ haddress' _ hchain =>
      rw [haddress] at haddress'
      cases haddress'
      rw [matchThunk_delayed]
      exact ih hchain
    | given haddress' _ _ =>
      rw [haddress] at haddress'
      cases haddress'
  | everything hdemand hvalue hparts ih =>
    intro thunk hnode
    obtain ⟨datum, hdatum, hmatch⟩ := agrees hregular htidy _ hvalue hnode
    rw [hmatch (by rw [hdemand]; rfl)]
    cases hdatum with
    | constructor hargs => rw [matchDatum_everything_constructor hdemand, ih hargs, throw_bind]
    | _ => cases hparts
  | constructor hdemand hvalue hcase _ ih =>
    intro thunk hnode
    obtain ⟨datum, hdatum, hmatch⟩ := agrees hregular htidy _ hvalue hnode
    rw [hmatch (by rw [hdemand]; rfl)]
    cases hdatum with
    | constructor hargs =>
      have hthrow := ih hargs (by rw [Outcome.plain_env, htidy.envs.entries_empty]; exact .nil)
      rw [← hargs.length_eq, Outcome.plain_next] at hthrow
      rw [matchDatum_constructor hdemand hcase, hthrow, throw_bind]
  | arg hnext _ ih =>
    intro thunks bound hnodes _
    cases hnodes with
    | cons hnode _ => rw [matchArgs_cons hnext, ih hnode, throw_bind]
  | stopsEarly hnext =>
    intro thunks bound hnodes _
    cases hnodes
    exact matchArgs_stops hnext _ _
  | args hnext hsettled hentries _ ih =>
    intro thunks bound hnodes hbound
    cases hnodes with
    | cons hnode hnodes =>
      obtain ⟨result, hresult, hmatches⟩ := matches_of_settled hregular htidy hsettled hnode
      rw [matchArgs_cons hnext, hresult, pure_bind, hmatches.next]
      refine ih hnodes ?_
      rw [Outcome.advance_env, hentries]
      exact hmatches.bound.chain.append hbound
  | part _ ih =>
    intro thunks hnodes
    cases hnodes with
    | cons hnode _ => rw [forceAll_cons, ih hnode, throw_bind]
  | parts hsettled _ ih =>
    intro thunks hnodes
    cases hnodes with
    | cons hnode hnodes =>
      obtain ⟨result, hresult, -⟩ := matches_of_settled hregular htidy hsettled hnode
      rw [forceAll_cons, hresult, pure_bind, ih hnodes, throw_bind]

end Whence.Reference
