import Whence.Proofs.Derivation.Failure
import Whence.Proofs.Orderly.Building
import Whence.Proofs.Inputs

/-!
# Why evaluation fails

An orderly program fails for reasons of its own: a name that is not bound, a value that is not as
demanded, or an error that the program raises itself.  Operands are what primitives ask for,
constructors have all their arguments, and a match that succeeds has come to a body.
-/

namespace Whence

variable {program : Program} {store : Store} {node : NodeId} {value : Value}

/-- What is reported as found if a pattern is broken or a function has no value. -/
def internalFindings : List String :=
  ["a pattern without a body", "a pattern that stops early", "nothing"]

/-- The program itself gives the reason for the error. -/
def Error.IsOwn : Error → Prop
  | .nameNotFound _ | .userError _ => True
  | .demandMismatch _ found => found ∉ internalFindings
  | _ => False

theorem Expr.kind_notMem_internalFindings (expr : Expr) : expr.kind ∉ internalFindings := by
  cases expr <;> simp [Expr.kind, internalFindings]

theorem Value.describe_notMem_internalFindings (value : Value) (symbols : SymbolTable) :
    value.describe symbols ∉ internalFindings := by
  -- Already the first two letters tell a description from the others.
  have hletters : ∀ found ∈ internalFindings,
      found.toList.take 2 ∈ [['a', ' '], ['n', 'o']] := by decide
  intro hmem
  have hfound := hletters _ hmem
  cases value <;> simp [Value.describe] at hfound

/-- The value is of the kind that a primitive asks for. -/
def Operand.Admits : Operand → Value → Prop
  | .number, .number _ => True
  | .text, .text _ => True
  | _, _ => False

theorem Operand.admits_of_accepts (hregular : program.Regular) {operand : Operand} {next : Next}
    (haccepts : (program.demand operand.demand).accepts? value = some next) :
    operand.Admits value := by
  cases operand with
  | number =>
    have hdemand : program.demand Operand.number.demand = .number .done := hregular.number
    rw [hdemand] at haccepts
    cases value with
    | number _ => trivial
    | _ => cases haccepts
  | text =>
    have hdemand : program.demand Operand.text.demand = .text .done := hregular.text
    rw [hdemand] at haccepts
    cases value with
    | text _ => trivial
    | _ => cases haccepts

/-- A unary primitive fails only by raising an error of the program. -/
theorem UnaryOp.apply_error {op : UnaryOp} {error : Error} (hadmits : op.operand.Admits value)
    (happly : op.apply value = .error error) : ∃ message, error = .userError message := by
  cases op with
  | error =>
    cases value with
    | text message =>
      cases happly
      exact ⟨message, rfl⟩
    | _ => cases hadmits
  | _ =>
    cases value with
    | number _ => cases happly
    | _ => cases hadmits

/-- A binary primitive never fails on operands of its kind. -/
theorem BinaryOp.apply_ok {op : BinaryOp} {left right : Value} (hleft : op.operand.Admits left)
    (hright : op.operand.Admits right) : ∃ value, op.apply left right = .ok value := by
  unfold BinaryOp.apply
  cases hoperand : op.operand with
  | number =>
    rw [hoperand] at hleft hright
    cases left with
    | number _ =>
      cases right with
      | number _ => exact ⟨_, rfl⟩
      | _ => cases hright
    | _ => cases hleft
  | text =>
    rw [hoperand] at hleft hright
    cases left with
    | text _ =>
      cases right with
      | text _ => exact ⟨_, rfl⟩
      | _ => cases hright
    | _ => cases hleft

/-- Constructors have all their arguments, and a primitive that has its first operand has one of its
kind. -/
def Value.Proper (program : Program) (store : Store) : Value → Prop
  | .constructor tag args => program.arity? tag = some args.length
  | .primitive (.partially op first) => ∃ left, store.value? first = some left ∧
      op.operand.Admits left
  | _ => True

theorem UnaryOp.apply_proper {op : UnaryOp} {argument : Value}
    (happly : op.apply argument = .ok value) : value.Proper program store := by
  cases op with
  | error =>
    cases argument <;> cases happly
  | _ =>
    cases argument with
    | number _ =>
      cases happly
      trivial
    | _ => cases happly

theorem Program.Orderly.ofBool_proper (horderly : program.Orderly) (value : Bool) :
    (Value.ofBool value).Proper program store := by
  cases value
  · exact horderly.builtins (.falseTag, 0) (by simp [Program.builtinArities])
  · exact horderly.builtins (.trueTag, 0) (by simp [Program.builtinArities])

theorem BinaryOp.apply_proper (horderly : program.Orderly) {op : BinaryOp} {left right : Value}
    (happly : op.apply left right = .ok value) : value.Proper program store := by
  have htexts : ∀ first second, (op.onTexts first second).Proper program store := by
    intro first second
    cases op <;> first | trivial | exact horderly.ofBool_proper _
  have hnumbers : ∀ first second, (op.onNumbers first second).Proper program store := by
    intro first second
    cases op <;> first | trivial | exact horderly.ofBool_proper _
  unfold BinaryOp.apply at happly
  split at happly
  case h_1 =>
    cases left with
    | text _ =>
      cases right with
      | text _ =>
        cases happly
        exact htexts _ _
      | _ => cases happly
    | _ => cases happly
  case h_2 =>
    cases left with
    | number _ =>
      cases right with
      | number _ =>
        cases happly
        exact hnumbers _ _
      | _ => cases happly
    | _ => cases happly

/-- The value may come from outside the program: it is data with all arguments in place, or a
primitive without operands. -/
def Value.Fitting (program : Program) : Value → Prop
  | .constructor tag args => program.arity? tag = some args.length
  | .closure _ | .primitive (.partially _ _) => False
  | _ => True

theorem Value.Fitting.proper (hfitting : value.Fitting program) : value.Proper program store := by
  cases value with
  | constructor tag args => exact hfitting
  | primitive primitive =>
    cases primitive with
    | partially op first => exact hfitting.elim
    | _ => trivial
  | _ => trivial

/-- All values are proper, since every rule makes proper values out of proper ones. -/
theorem Holds.proper (hregular : program.Regular) (horderly : program.Orderly)
    (hinputs : store.InputsSatisfy (Value.Fitting program)) (hholds : Holds program store node)
    (hvalue : store.value? node = some value) : value.Proper program store := by
  induction hholds generalizing value with
  | input _ haddress => exact (hinputs _ _ _ haddress hvalue).proper
  | @evaluation _ env expr explanation found allowed _ hknown hrule _ ih =>
    rw [Store.value?_of_knowledge hknown] at hvalue
    cases hvalue
    generalize program.expr expr = form at hrule
    cases hrule with
    | number | text | function _ => trivial
    | @constructor tag args constructor nodes hconstructor harity hregistered =>
      have hlength : args.length = nodes.length := by
        simpa using congrArg List.length hregistered
      change program.arity? tag = some nodes.length
      rw [Program.arity?, hconstructor, Option.map_some, harity, hlength]
    | var _ _ hallowed htarget => exact ih _ hallowed htarget
    | op _ _ hallowed htarget => exact ih _ hallowed htarget
    | closure _ _ _ _ _ _ _ _ _ hbody => exact ih _ hbody.allowed hbody.value
    | primitive hfunction hoperand haccepts hcomputes =>
      cases hcomputes with
      | unary happly => exact UnaryOp.apply_proper happly
      | binary => exact ⟨_, hoperand.value, Operand.admits_of_accepts hregular haccepts⟩
      | partially _ _ happly => exact BinaryOp.apply_proper horderly happly
    | letIn _ _ _ hbody => exact ih _ hbody.allowed hbody.value
    | letRec _ hbody => exact ih _ hbody.allowed hbody.value
    | matching _ _ _ _ _ hbody => exact ih _ hbody.allowed hbody.value
    | defs _ hbody => exact ih _ hbody.allowed hbody.value

theorem Demand.next?_of_accepts {layer : Demand} {next : Next}
    (haccepts : layer.accepts? value = some next) : layer.next? = some next := by
  cases layer <;> cases value <;> cases haccepts <;> rfl

mutual

/-- A match that succeeds has used up one value on the way to a body. -/
theorem Settles.leads {allowed : NodeId → Prop} {demand : DemandId} {outcome : Outcome} {count : Nat}
    {node : NodeId}
    (hproper : ∀ node value, store.value? node = some value → value.Proper program store) :
    Settles program store allowed node demand outcome → program.Leads (count + 1) (.demand demand) →
      program.Leads count outcome.next
  | .bind hdemand _ _, hleads => by
    rw [Program.leads_demand_iff, hdemand, Program.layerLeads_iff rfl] at hleads
    exact hleads
  | .everything hdemand _, hleads => by
    rw [Program.leads_demand_iff, hdemand, Program.layerLeads_iff rfl] at hleads
    exact hleads
  | .kind _ _ haccepts, hleads => by
    rw [Program.leads_demand_iff, Program.layerLeads_iff (Demand.next?_of_accepts haccepts)] at hleads
    exact hleads
  | .constructor hdemand _ hvalue hcase hargs, hleads => by
    rw [Program.leads_demand_iff, hdemand] at hleads
    obtain ⟨arity, harity, hnext⟩ := hleads _ (Environments.mem_of_lookup hcase)
    have hlength : program.arity? _ = some _ := hproper _ _ hvalue
    cases harity.symm.trans hlength
    exact hargs.leads hproper hnext

theorem SettlesArgs.leads {allowed : NodeId → Prop} {outcome final : Outcome} {count : Nat}
    {args : List NodeId}
    (hproper : ∀ node value, store.value? node = some value → value.Proper program store) :
    SettlesArgs program store allowed outcome args final →
      program.Leads (args.length + count) outcome.next → program.Leads count final.next
  | .nil, hleads => by
    rw [List.length_nil, Nat.zero_add] at hleads
    exact hleads
  | .cons hnext hmatched _ _ hrest, hleads => by
    rw [List.length_cons, Nat.add_right_comm, hnext] at hleads
    have hmatchedLeads := hmatched.leads hproper hleads
    exact hrest.leads hproper hmatchedLeads

end

/-! ## Failures -/

theorem Program.Leads.exists_body {next : Next} (hleads : program.Leads 0 next) :
    ∃ body, next = .body body := by
  cases hleads
  exact ⟨_, rfl⟩

theorem Program.Leads.exists_demand {next : Next} {count : Nat}
    (hleads : program.Leads (count + 1) next) : ∃ demand, next = .demand demand := by
  cases hleads <;> exact ⟨_, rfl⟩

/-- If the demand is on constructors, its patterns end in bodies. -/
def Program.Guards (program : Program) (demand : DemandId) : Prop :=
  ∀ cases, program.demand demand = .constructor cases →
    ∃ count, program.Leads (count + 1) (.demand demand)

theorem Program.guards_of_leads {demand : DemandId} {count : Nat}
    (hleads : program.Leads (count + 1) (.demand demand)) : program.Guards demand :=
  fun _ _ ↦ ⟨count, hleads⟩

theorem Program.guards_of_next? {demand : DemandId} {next : Next}
    (hnext : (program.demand demand).next? = some next) : program.Guards demand := by
  intro cases hcases
  rw [hcases] at hnext
  cases hnext

/-- What may fail stems from the program and its demands end in bodies. -/
def Task.Orderly (program : Program) : Task → Prop
  | .eval _ _ demand | .node _ demand => program.Guards demand
  | .form shape _ expr demand => program.expr expr = shape ∧ program.Guards demand
  | .args _ outcome rest => ∃ count, program.Leads (rest.length + count) outcome.next
  | .definitions _ _ | .all _ => True

/-- Failures of an orderly program have their reason in the program. -/
theorem Fails.isOwn (hregular : program.Regular) (horderly : program.Orderly)
    (hproper : ∀ node value, store.value? node = some value → value.Proper program store)
    {task : Task} {error : Error} (hfails : Fails program store task error)
    (htask : task.Orderly program) : error.IsOwn := by
  have heverything : program.Guards .everything :=
    Program.guards_of_next? (by rw [hregular.everything]; rfl)
  have hfunction : program.Guards .function :=
    Program.guards_of_next? (by rw [hregular.function]; rfl)
  have hoperand : ∀ operand : Operand, program.Guards operand.demand := by
    intro operand
    cases operand with
    | number => exact Program.guards_of_next? (by rw [Operand.demand, hregular.number]; rfl)
    | text => exact Program.guards_of_next? (by rw [Operand.demand, hregular.text]; rfl)
  induction hfails with
  | form _ _ ih => exact ih ⟨rfl, htask⟩
  | value _ _ ih => exact ih htask.2
  | @unknownConstructor tag args _ expr _ hnone =>
    have hexpr := horderly.exprs expr
    rw [htask.1] at hexpr
    have harity : program.arity? tag = some args.length := hexpr
    rw [Program.arity?, hnone] at harity
    cases harity
  | @arityMismatch tag args constructor _ expr _ hconstructor hne =>
    have hexpr := horderly.exprs expr
    rw [htask.1] at hexpr
    have harity : program.arity? tag = some args.length := hexpr
    rw [Program.arity?, hconstructor] at harity
    exact absurd (Option.some.inj harity) hne
  | unboundVar _ => trivial
  | unboundOp _ => trivial
  | var _ _ _ ih => exact ih htask.2
  | op _ _ _ ih => exact ih htask.2
  | function _ ih => exact ih hfunction
  | literal _ _ => exact Expr.kind_notMem_internalFindings _
  | @argument _ _ _ _ _ _ closure parameter _ _ hexpr _ ih =>
    have hleads := horderly.exprs closure.function
    rw [hexpr] at hleads
    exact ih (Program.guards_of_leads hleads)
  | @noBody _ _ _ _ _ _ closure parameter matched _ hexpr hreached hnext =>
    have hleads := horderly.exprs closure.function
    rw [hexpr] at hleads
    obtain ⟨body, hbody⟩ := (hreached.settled.leads hproper hleads).exists_body
    exact absurd hbody (hnext body)
  | body _ _ _ _ _ _ ih => exact ih htask.2
  | operand _ _ ih => exact ih (hoperand _)
  | unary _ _ haccepts happly =>
    obtain ⟨message, rfl⟩ := UnaryOp.apply_error (Operand.admits_of_accepts hregular haccepts) happly
    trivial
  | firstOperand happlied _ hnone =>
    obtain ⟨left, hleft, -⟩ := hproper _ _ happlied.value
    rw [hnone] at hleft
    cases hleft
  | binary happlied _ haccepts hfirst happly =>
    obtain ⟨left, hleft, hadmits⟩ := hproper _ _ happlied.value
    rw [hfirst] at hleft
    cases hleft
    obtain ⟨value, hvalue⟩ :=
      BinaryOp.apply_ok hadmits (Operand.admits_of_accepts hregular haccepts)
    rw [happly] at hvalue
    cases hvalue
  | letIn _ _ _ ih => exact ih htask.2
  | letRec _ _ ih => exact ih htask.2
  | @scrutinee _ cases _ expr _ _ _ ih =>
    have hleads := horderly.exprs expr
    rw [htask.1] at hleads
    exact ih (Program.guards_of_leads hleads)
  | @noCase _ cases _ expr _ matched hreached hnext =>
    have hleads := horderly.exprs expr
    rw [htask.1] at hleads
    obtain ⟨body, hbody⟩ := (hreached.settled.leads hproper hleads).exists_body
    exact absurd hbody (hnext body)
  | matching _ _ _ _ ih => exact ih htask.2
  | definitions _ ih => exact ih trivial
  | defs _ _ ih => exact ih htask.2
  | defineValue _ _ _ ih => exact ih trivial
  | noPrimitive _ => trivial
  | definePrimitive _ _ _ _ ih => exact ih trivial
  | defineGroup _ _ ih => exact ih trivial
  | mismatch _ _ => exact Value.describe_notMem_internalFindings _ _
  | evaluation _ _ ih => exact ih htask
  | everything _ _ _ ih => exact ih trivial
  | @constructor _ _ _ tag args _ _ hdemand hvalue hcase _ ih =>
    obtain ⟨count, hleads⟩ := htask _ hdemand
    rw [Program.leads_demand_iff, hdemand] at hleads
    obtain ⟨arity, harity, hnext⟩ := hleads _ (Environments.mem_of_lookup hcase)
    have hlength : program.arity? tag = some args.length := hproper _ _ hvalue
    cases harity.symm.trans hlength
    exact ih ⟨count, hnext⟩
  | arg hnext _ ih =>
    obtain ⟨count, hleads⟩ := htask
    rw [List.length_cons, Nat.add_right_comm, hnext] at hleads
    exact ih (Program.guards_of_leads hleads)
  | stopsEarly hnext =>
    obtain ⟨count, hleads⟩ := htask
    rw [List.length_cons, Nat.add_right_comm] at hleads
    obtain ⟨demand, hdemand⟩ := hleads.exists_demand
    exact absurd hdemand (hnext demand)
  | args hnext hmatched _ _ ih =>
    obtain ⟨count, hleads⟩ := htask
    rw [List.length_cons, Nat.add_right_comm, hnext] at hleads
    have hmatchedLeads := Settles.leads hproper hmatched hleads
    exact ih ⟨count, hmatchedLeads⟩
  | part _ ih => exact ih heverything
  | parts _ _ ih => exact ih trivial

end Whence
