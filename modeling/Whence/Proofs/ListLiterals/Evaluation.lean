import Whence.Proofs.ListLiterals.Building
import Whence.Proofs.Orderly.Building
import Whence.Proofs.Renderings
import Whence.Proofs.Sessions

/-!
# Evaluating list literals

Each cell of a list is evaluated one level deeper than the cell before it, and the end of the list
once more.  So in a fresh session a list of numbers comes out whole if the limit is above its length,
and otherwise the limit is met.  No cell is found in the memory or has a value before its turn, since
it is not evaluated until the cell before it is; the literals may occur several times.
-/

namespace Whence

open Machine

namespace Store

variable {store : Store} {address other : Address} {allowed : Knowledge → Prop}

/-- Whatever is known about the node of the address is allowed. -/
def Permits (store : Store) (address : Address) (allowed : Knowledge → Prop) : Prop :=
  ∀ node knowledge, store.lookup? address = some node → store.knowledge? node = some knowledge →
    allowed knowledge

theorem Permits.register (hpermits : store.Permits address allowed) (other : Address) :
    (store.register other).2.Permits address allowed := by
  intro node knowledge hlookup hknown
  rw [knowledge?_register] at hknown
  cases hother : store.lookup? other with
  | some registered =>
    rw [register_of_lookup hother] at hlookup
    exact hpermits node knowledge hlookup hknown
  | none =>
    rw [register_of_none hother, lookup?_allot] at hlookup
    split at hlookup
    case isTrue =>
      cases hlookup
      exact absurd (contains_of_knowledge hknown) (Nat.lt_irrefl _)
    case isFalse => exact hpermits node knowledge hlookup hknown

theorem Permits.enter (hpermits : store.Permits address allowed) (hrooted : store.Rooted)
    {node : NodeId} (hlookup : store.lookup? other = some node) {knowledge : Knowledge}
    (hallowed : other = address → allowed knowledge) :
    (store.enter node knowledge).Permits address allowed := by
  intro node' knowledge' hlookup' hknown
  rw [knowledge?_enter hrooted (hrooted.contains_of_lookup hlookup)] at hknown
  split at hknown
  case isTrue hsame =>
    subst hsame
    cases hknown
    apply hallowed
    calc other
      _ = store.address node := (hrooted.address_of_lookup hlookup).symm
      _ = address := hrooted.address_of_lookup hlookup'
  case isFalse => exact hpermits node' knowledge' hlookup' hknown

/-- The node is a chain of cells with the numbers as heads. -/
inductive HoldsNumbers (store : Store) : NodeId → List Number → Prop
  | nil {node : NodeId} (hvalue : store.value? node = some (.constructor .nilTag [])) :
      HoldsNumbers store node []
  | cons {node head tail : NodeId} {value : Number} {values : List Number}
      (hvalue : store.value? node = some (.constructor .consTag [head, tail]))
      (hhead : store.value? head = some (.number value)) (htail : HoldsNumbers store tail values) :
      HoldsNumbers store node (value :: values)

theorem HoldsNumbers.isList {node : NodeId} {values : List Number}
    (hnumbers : store.HoldsNumbers node values) : ∃ items, store.IsList node items ∧
      List.Forall₂ (fun item value ↦ store.value? item = some (.number value)) items values := by
  induction hnumbers with
  | nil hvalue => exact ⟨[], .nil hvalue, .nil⟩
  | cons hvalue hhead _ ih =>
    obtain ⟨items, hlist, hitems⟩ := ih
    exact ⟨_, .cons hvalue hlist, .cons hhead hitems⟩

end Store

/-- A chain of cells with numbers is shown as their list. -/
theorem View.of_numbers {store : Store} {node : NodeId} {values : List Number}
    (hnumbers : store.HoldsNumbers node values) (program : Program) :
    View.of store program node = .list (values.map .number) := by
  obtain ⟨items, hlist, hitems⟩ := hnumbers.isList
  obtain ⟨tag, args, hvalue⟩ := hlist.exists_value
  have hcollected : listItems? store store.size node = some items :=
    hlist.collects_empty.unique (collects_listItems? store node)
  obtain ⟨depth, hdepth⟩ : ∃ depth, store.size = depth + 1 :=
    Nat.exists_eq_add_one_of_ne_zero (Nat.ne_zero_of_lt (Store.contains_of_value hvalue))
  have hshown : items.map (inline store program store.size [node]) = values.map .number := by
    rw [hdepth]
    clear hnumbers hlist hcollected
    induction hitems with
    | nil => rfl
    | cons hitem _ ih =>
      rw [List.map_cons, List.map_cons, inline_plain (by rw [hitem]; rfl), ih]
  simp only [of, inline, hvalue, hcollected, hshown]
  rfl

/-- The program knows the constructors of lists, and its first demand is for everything. -/
structure Program.KnowsLists (program : Program) : Prop where
  everything : program.demands[0]? = some (.everything .done)
  nil : program.arity? .nilTag = some 0
  cons : program.arity? .consTag = some 2

namespace Program.KnowsLists

variable {program : Program}

theorem demand_eq (hprogram : program.KnowsLists) :
    program.demand .everything = .everything .done := by
  have hfirst : program.demands[DemandId.everything.index]? = some (.everything .done) :=
    hprogram.everything
  rw [Program.demand, hfirst, Option.getD_some]

theorem isBind_eq (hprogram : program.KnowsLists) :
    (program.demand .everything).isBind = false := by
  rw [hprogram.demand_eq]
  rfl

/-- The parts of a known value are gone into at least one step further. -/
theorem node_eq (hprogram : program.KnowsLists) (reach : Nat) (evaluate : Evaluator)
    (machine : Machine) {node : NodeId} {value : Value}
    (hvalue : machine.store.value? node = some value) :
    ∃ steps, Matching.node program reach evaluate node .everything machine = (do
      Matching.forceAll
        (fun part ↦ Matching.within program evaluate (steps + 1) part .everything) value.parts
      pure (Outcome.plain node .done)) machine := by
  have hsize : 0 < machine.store.size := Nat.zero_lt_of_lt (Store.contains_of_value hvalue)
  have hdemands : 0 < program.demands.size := (Array.getElem?_eq_some_iff.1 hprogram.everything).1
  obtain ⟨steps, hsteps⟩ : ∃ steps,
      machine.store.size + program.demands.size + reach = steps + 1 + 1 :=
    ⟨machine.store.size + program.demands.size + reach - 2, by omega⟩
  refine ⟨steps, ?_⟩
  calc Matching.node program reach evaluate node .everything machine
    _ = Matching.within program evaluate (steps + 1 + 1) node .everything machine := by
      rw [← hsteps]
      rfl
    _ = _ := by
      rw [Matching.within_of_value _ _ hprogram.isBind_eq hvalue,
        Matching.value_of_everything hprogram.demand_eq]

end Program.KnowsLists

/-- A literal is known as its number only, and nothing is known about short lists. -/
structure Program.Allows (program : Program) (count : Nat) (expr : ExprId) (knowledge : Knowledge) :
    Prop where
  literal : ∀ value, program.exprs[expr.index]? = some (.number value) →
    knowledge = .of .given (.number value)
  list : ∀ values, program.Lists expr values → count < values.length

/-- Lists of up to `count` numbers have not been evaluated in the environment.  Literals may have been,
and what is remembered of them has been recorded. -/
structure Machine.Awaits (program : Program) (env : EnvId) (count : Nat) (machine : Machine) : Prop where
  rooted : machine.store.Rooted
  revision : machine.memo.revision = .root
  known : ∀ expr, machine.store.Permits (.evaluation env expr) (program.Allows count expr)
  literal : ∀ expr outcome value,
    machine.memo.outcomes[(⟨env, expr, .everything⟩ : Request)]? = some outcome →
    program.exprs[expr.index]? = some (.number value) →
    ∃ node, machine.store.lookup? (.evaluation env expr) = some node ∧
      machine.store.value? node = some (.number value)
  list : ∀ expr outcome values,
    machine.memo.outcomes[(⟨env, expr, .everything⟩ : Request)]? = some outcome →
    program.Lists expr values → count < values.length

/-- Evaluating the list with so many levels left comes to its numbers, or meets the limit. -/
def Machine.ComesToList (program : Program) (settings : Settings) (env : EnvId) (expr : ExprId)
    (values : List Number) (depth : Nat) (machine : Machine) : Prop :=
  (values.length < depth → ∃ outcome final,
    Evaluation.nested program settings depth env expr .everything machine = .ok outcome final ∧
    machine.store.Grows final.store ∧
    final.store.lookup? (.evaluation env expr) = some outcome.node ∧
    final.store.HoldsNumbers outcome.node values) ∧
  (depth ≤ values.length → ∃ final,
    Evaluation.nested program settings depth env expr .everything machine =
      .error (.depthExceeded settings.maxDepth) final)

namespace Machine.Awaits

variable {program : Program} {settings : Settings} {env : EnvId} {count : Nat} {machine : Machine}
  {expr : ExprId}

theorem mono (hawaits : Awaits program env count machine) {less : Nat} (hless : less ≤ count) :
    Awaits program env less machine where
  rooted := hawaits.rooted
  revision := hawaits.revision
  known expr node knowledge hlookup hknown :=
    { hawaits.known expr node knowledge hlookup hknown with
      list := fun values hlists ↦ Nat.lt_of_le_of_lt hless
        ((hawaits.known expr node knowledge hlookup hknown).list values hlists) }
  literal := hawaits.literal
  list expr outcome values hfound hlists :=
    Nat.lt_of_le_of_lt hless (hawaits.list expr outcome values hfound hlists)

theorem synchronize_eq (hawaits : Awaits program env count machine) :
    machine.synchronize = machine := by
  apply synchronize_of_revision
  rw [hawaits.revision, hawaits.rooted.lineage.2]

/-- The store may grow as long as only what is allowed becomes known. -/
theorem withStore (hawaits : Awaits program env count machine) {store : Store}
    (hrooted : store.Rooted) (hgrows : machine.store.Grows store)
    (hknown : ∀ expr, store.Permits (.evaluation env expr) (program.Allows count expr)) :
    Awaits program env count { machine with store } where
  rooted := hrooted
  revision := hawaits.revision
  known := hknown
  literal expr outcome value hfound hexpr := by
    obtain ⟨node, hlookup, hvalue⟩ := hawaits.literal expr outcome value hfound hexpr
    exact ⟨node, hgrows.lookup hlookup, hgrows.value hvalue⟩
  list := hawaits.list

theorem register (hawaits : Awaits program env count machine) (address : Address) :
    Awaits program env count { machine with store := (machine.store.register address).2 } :=
  hawaits.withStore (Store.register_rooted hawaits.rooted address)
    (Store.register_grows machine.store address) fun expr ↦ (hawaits.known expr).register address

/-- What is recorded for the first time is known afterwards. -/
theorem write (hawaits : Awaits program env count machine)
    (hunknown : machine.store.Permits (.evaluation env expr) fun _ ↦ False) (value : Value) :
    ∃ node store, perform (Store.write (.evaluation env expr) (.of .given value)) machine =
        .ok node { machine with store } ∧
      machine.store.Grows store ∧ store.lookup? (.evaluation env expr) = some node ∧
      store.value? node = some value ∧
      ∀ less ≤ count, program.Allows less expr (.of .given value) →
        Awaits program env less { machine with store } := by
  let address : Address := .evaluation env expr
  let node := (machine.store.register address).1
  let registered := (machine.store.register address).2
  have hrooted : registered.Rooted := Store.register_rooted hawaits.rooted address
  have hlookup : registered.lookup? address = some node := Store.lookup?_register machine.store address
  have hnode : registered.Contains node := hrooted.contains_of_lookup hlookup
  have hnone : registered.knowledge? node = none := by
    cases hknown : registered.knowledge? node with
    | none => rfl
    | some knowledge => exact (hunknown.register address node knowledge hlookup hknown).elim
  have hwrite : Store.write address (.of .given value) machine.store =
      .ok node (registered.enter node (.of .given value)) := by
    apply Store.write_of_unknown hawaits.rooted address (Knowledge.isBlank_of _ _)
    rw [← Store.knowledge?_register machine.store address]
    exact hnone
  have hgrows : machine.store.Grows (registered.enter node (.of .given value)) :=
    (Store.register_grows machine.store address).trans (Store.enter_grows hrooted hnode hnone)
  have hvalue : (registered.enter node (.of .given value)).knowledge? node =
      some (.of .given value) := by
    rw [Store.knowledge?_enter hrooted hnode, if_pos rfl]
  refine ⟨node, _, perform_ok hwrite, hgrows, hlookup, Store.value?_of_knowledge hvalue,
    fun less hless hallows ↦ ?_⟩
  apply (hawaits.mono hless).withStore (Store.enter_rooted hrooted hnode .given value) hgrows
  intro other
  apply (((hawaits.mono hless).known other).register address).enter hrooted hlookup
  intro heq
  obtain ⟨-, rfl⟩ := Address.evaluation.inj heq
  exact hallows

/-- The arguments of a constructor are registered and stay as they are. -/
theorem registerAll (hawaits : Awaits program env count machine) (args : List ExprId) :
    ∃ nodes store, Rules.registerAll env args machine = .ok nodes { machine with store } ∧
      Awaits program env count { machine with store } ∧ machine.store.Grows store ∧
      List.Forall₂ (fun arg node ↦ store.lookup? (.evaluation env arg) = some node) args nodes := by
  induction args generalizing machine with
  | nil => exact ⟨[], machine.store, rfl, hawaits, .refl _, .nil⟩
  | cons arg args ih =>
    let registered := (machine.store.register (.evaluation env arg)).2
    obtain ⟨nodes, store, hrun, hawaits', hgrows, hnodes⟩ :=
      ih (hawaits.register (.evaluation env arg))
    have hlookup : registered.lookup? (.evaluation env arg) =
        some (machine.store.register (.evaluation env arg)).1 :=
      Store.lookup?_register machine.store (.evaluation env arg)
    refine ⟨_, store, ?_, hawaits', ?_, .cons (hgrows.lookup hlookup) hnodes⟩
    · simp only [Rules.registerAll, run_bind, change_eq]
      rw [hrun]
      rfl
    · exact (Store.register_grows machine.store _).trans hgrows

/-- A literal that was evaluated is remembered. -/
theorem remember (hawaits : Awaits program env count machine) (settings : Settings)
    (outcome : Outcome) {node : NodeId} {value : Number}
    (hexpr : program.exprs[expr.index]? = some (.number value))
    (hlookup : machine.store.lookup? (.evaluation env expr) = some node)
    (hvalue : machine.store.value? node = some (.number value)) :
    Awaits program env count (Machine.remember settings ⟨env, expr, .everything⟩ outcome machine) where
  rooted := by
    rw [store_remember]
    exact hawaits.rooted
  revision := by
    rw [revision_remember]
    exact hawaits.revision
  known := by
    rw [store_remember]
    exact hawaits.known
  literal other found value' hfound hother := by
    rw [store_remember]
    obtain ⟨hsame, -⟩ | hfound := mem_of_remember hfound
    · cases hsame
      cases hexpr.symm.trans hother
      exact ⟨node, hlookup, hvalue⟩
    · exact hawaits.literal other found value' hfound hother
  list other found values hfound hother := by
    obtain ⟨hsame, -⟩ | hfound := mem_of_remember hfound
    · cases hsame
      cases hother with
      | nil hexpr' | cons hexpr' _ _ => cases hexpr.symm.trans hexpr'
    · exact hawaits.list other found values hfound hother

theorem remembered?_eq_none {request : Request}
    (hnone : ∀ outcome, machine.memo.outcomes[request]? ≠ some outcome) (settings : Settings) :
    machine.remembered? settings request = none := by
  unfold remembered?
  split
  · exact Option.eq_none_iff_forall_not_mem.2 hnone
  · rfl

/-- No outcome is remembered for a literal about which nothing is known. -/
theorem remembered?_literal (hawaits : Awaits program env count machine) (settings : Settings)
    {value : Number} (hexpr : program.exprs[expr.index]? = some (.number value))
    (hunknown : machine.store.Permits (.evaluation env expr) fun _ ↦ False) :
    machine.remembered? settings ⟨env, expr, .everything⟩ = none := by
  apply remembered?_eq_none
  intro outcome hfound
  obtain ⟨node, hlookup, hvalue⟩ := hawaits.literal expr outcome value hfound hexpr
  obtain ⟨explanation, hknown⟩ := hawaits.rooted.knowledge_of_value hvalue
  exact hunknown node _ hlookup hknown

/-- Neither is one for a list whose turn has not come. -/
theorem remembered?_list {values : List Number} (hlists : program.Lists expr values)
    (hawaits : Awaits program env values.length machine) (settings : Settings) :
    machine.remembered? settings ⟨env, expr, .everything⟩ = none := by
  apply remembered?_eq_none
  intro outcome hfound
  exact Nat.lt_irrefl _ (hawaits.list expr outcome values hfound hlists)

theorem permits_of_lists {values : List Number} (hlists : program.Lists expr values)
    (hawaits : Awaits program env values.length machine) :
    machine.store.Permits (.evaluation env expr) fun _ ↦ False := by
  intro node knowledge hlookup hknown
  exact Nat.lt_irrefl _ ((hawaits.known expr node knowledge hlookup hknown).list values hlists)

/-! ## Evaluating literals -/

section Evaluation

variable (settings) (hprogram : program.KnowsLists) (hawaits : Awaits program env count machine)

include hprogram hawaits

/-- A literal that is not known yet is evaluated wherever there is room for one level. -/
theorem nested_literal {value : Number} (hexpr : program.exprs[expr.index]? = some (.number value))
    (hunknown : machine.store.Permits (.evaluation env expr) fun _ ↦ False) (depth : Nat) :
    ∃ outcome final, Evaluation.nested program settings (depth + 1) env expr .everything machine =
        .ok outcome final ∧
      Awaits program env count final ∧ machine.store.Grows final.store ∧
      ∃ node, final.store.lookup? (.evaluation env expr) = some node ∧
        final.store.value? node = some (.number value) := by
  have hallows : program.Allows count expr (.of .given (.number value)) := by
    refine ⟨fun value' hexpr' ↦ ?_, fun values hlists ↦ ?_⟩
    · cases hexpr.symm.trans hexpr'
      rfl
    · cases hlists with
      | nil hexpr' | cons hexpr' _ _ => cases hexpr.symm.trans hexpr'
  obtain ⟨node, store, hwrite, hgrows, hlookup, hvalue, hwritten⟩ :=
    hawaits.write hunknown (.number value)
  have hawaits' := hwritten count (Nat.le_refl count) hallows
  obtain ⟨steps, hmatch⟩ := hprogram.node_eq settings.reach
    (Evaluation.nested program settings depth) { machine with store } hvalue
  have hstep : Evaluation.unremembered program settings (depth + 1) env expr .everything machine =
      .ok (.plain node .done) { machine with store } := by
    rw [Evaluation.unremembered, Rules.step_of_not_bind hprogram.isBind_eq,
      Program.expr_of_exprs hexpr]
    simp only [Rules.byForm, Rules.given, run_bind, hwrite, hmatch]
    rfl
  have hnone := hawaits.remembered?_literal settings hexpr hunknown
  refine ⟨.plain node .done, _, ?_,
    hawaits'.remember settings (.plain node .done) hexpr hlookup hvalue, ?_, node, ?_⟩
  · rw [Evaluation.nested_eq, memoized_of_none _ hawaits.synchronize_eq hnone, hstep]
  · rw [store_remember]
    exact hgrows
  · rw [store_remember]
    exact ⟨hlookup, hvalue⟩

omit hprogram in
/-- Nothing is known about a node that has no value. -/
theorem permits_of_value_none {node : NodeId}
    (hlookup : machine.store.lookup? (.evaluation env expr) = some node)
    (hvalue : machine.store.value? node = none) :
    machine.store.Permits (.evaluation env expr) fun _ ↦ False := by
  intro other knowledge hother hknown
  cases hlookup.symm.trans hother
  obtain ⟨explanation, value, rfl⟩ := hawaits.rooted.full hknown
  rw [Store.value?_of_knowledge hknown] at hvalue
  cases hvalue

/-- The literal at the head of a cell has its value afterwards, unless there is no room left. -/
theorem within_literal {value : Number} (hexpr : program.exprs[expr.index]? = some (.number value))
    {node : NodeId} (hlookup : machine.store.lookup? (.evaluation env expr) = some node)
    (depth steps : Nat) :
    (∃ outcome final, Matching.within program (Evaluation.nested program settings depth) (steps + 1)
        node .everything machine = .ok outcome final ∧
      Awaits program env count final ∧ machine.store.Grows final.store ∧
      final.store.value? node = some (.number value)) ∨
    depth = 0 ∧ ∃ final, Matching.within program (Evaluation.nested program settings depth)
      (steps + 1) node .everything machine = .error (.depthExceeded settings.maxDepth) final := by
  cases hvalue : machine.store.value? node with
  | some held =>
    obtain ⟨explanation, hknown⟩ := hawaits.rooted.knowledge_of_value hvalue
    have hheld := (hawaits.known expr node _ hlookup hknown).literal value hexpr
    cases hheld
    refine .inl ⟨.plain node .done, machine, ?_, hawaits, .refl _, hvalue⟩
    rw [Matching.within_of_value _ _ hprogram.isBind_eq hvalue,
      Matching.value_of_everything hprogram.demand_eq]
    rfl
  | none =>
    have hunknown := hawaits.permits_of_value_none hlookup hvalue
    rw [Matching.within_of_value_none _ _ hprogram.isBind_eq hvalue
      (hawaits.rooted.address_of_lookup hlookup)]
    cases depth with
    | zero =>
      have hnone := hawaits.remembered?_literal settings hexpr hunknown
      refine .inr ⟨rfl, machine, ?_⟩
      rw [Evaluation.nested_eq, memoized_of_none _ hawaits.synchronize_eq hnone]
      rfl
    | succ depth =>
      obtain ⟨outcome, final, hrun, hawaits', hgrows, other, hlookup', hvalue'⟩ :=
        nested_literal settings hprogram hawaits hexpr hunknown depth
      cases (hgrows.lookup hlookup).symm.trans hlookup'
      exact .inl ⟨outcome, final, hrun, hawaits', hgrows, hvalue'⟩

omit hawaits in
/-- Evaluating a cell records it and goes into its parts, which are registered. -/
theorem construct {values : List Number} (hlists : program.Lists expr values)
    (hawaits : Awaits program env values.length machine) {tag : Symbol} {args : List ExprId}
    (hexpr : program.exprs[expr.index]? = some (.constructor tag args))
    (harity : program.arity? tag = some args.length) (depth : Nat) :
    ∃ node nodes store steps,
      Evaluation.unremembered program settings (depth + 1) env expr .everything machine = (do
        Matching.forceAll (fun part ↦ Matching.within program
          (Evaluation.nested program settings depth) (steps + 1) part .everything) nodes
        pure (Outcome.plain node .done)) { machine with store } ∧
      machine.store.Grows store ∧ store.lookup? (.evaluation env expr) = some node ∧
      store.value? node = some (.constructor tag nodes) ∧
      List.Forall₂ (fun arg node ↦ store.lookup? (.evaluation env arg) = some node) args nodes ∧
      ∀ less < values.length, Awaits program env less { machine with store } := by
  obtain ⟨nodes, registered, hregister, hregistered, hgrows, hnodes⟩ := hawaits.registerAll args
  obtain ⟨node, store, hwrite, hgrows', hlookup, hvalue, hwritten⟩ :=
    hregistered.write (hregistered.permits_of_lists hlists) (.constructor tag nodes)
  obtain ⟨steps, hmatch⟩ := hprogram.node_eq settings.reach
    (Evaluation.nested program settings depth) { machine with store } hvalue
  obtain ⟨constructor, hconstructor, hcount⟩ := Option.map_eq_some_iff.1 harity
  refine ⟨node, nodes, store, steps, ?_, hgrows.trans hgrows', hlookup, hvalue, ?_, ?_⟩
  · rw [Evaluation.unremembered, Rules.step_of_not_bind hprogram.isBind_eq,
      Program.expr_of_exprs hexpr]
    simp only [Rules.byForm, Rules.construct, hconstructor, hcount, ↓reduceIte, Rules.given, run_bind,
      hregister, hwrite, hmatch]
    rfl
  · exact hnodes.imp fun _ _ hnode ↦ hgrows'.lookup hnode
  · intro less hless
    apply hwritten less (Nat.le_of_lt hless)
    refine ⟨fun value hliteral ↦ ?_, fun values' hlists' ↦ ?_⟩
    · cases hexpr.symm.trans hliteral
    · rw [hlists.unique hlists']
      exact hless

omit hawaits in
/-- The parts of a cell are forced exactly where there is room for the tail. -/
theorem forceAll_cell {head tail : ExprId} {value : Number} {values : List Number}
    (hhead : program.exprs[head.index]? = some (.number value)) (htail : program.Lists tail values)
    (hawaits : Awaits program env values.length machine) {depth : Nat}
    (hnested : ∀ {middle : Machine}, Awaits program env values.length middle →
      middle.ComesToList program settings env tail values depth)
    {first second : NodeId} (hfirst : machine.store.lookup? (.evaluation env head) = some first)
    (hsecond : machine.store.lookup? (.evaluation env tail) = some second) (steps : Nat) :
    let force := Matching.forceAll fun part ↦ Matching.within program
      (Evaluation.nested program settings depth) (steps + 1) part .everything
    (values.length < depth → ∃ final, force [first, second] machine = .ok () final ∧
      machine.store.Grows final.store ∧ final.store.value? first = some (.number value) ∧
      final.store.HoldsNumbers second values) ∧
    (depth ≤ values.length → ∃ final,
      force [first, second] machine = .error (.depthExceeded settings.maxDepth) final) := by
  intro force
  obtain ⟨outcome, middle, hliteral, hmiddle, hgrows, hvalue⟩ | ⟨rfl, middle, hliteral⟩ :=
    within_literal settings hprogram hawaits hhead hfirst depth steps
  case inr =>
    -- There was no room for the head.
    refine ⟨fun hroom ↦ absurd hroom (Nat.not_lt_zero _), fun _ ↦ ⟨middle, ?_⟩⟩
    simp only [force, Matching.forceAll, run_bind, hliteral]
  -- The head has its value, and nothing is known about the tail.
  have hlookup : middle.store.lookup? (.evaluation env tail) = some second := hgrows.lookup hsecond
  have hunknown : middle.store.value? second = none := by
    cases hheld : middle.store.value? second with
    | none => rfl
    | some held =>
      obtain ⟨explanation, hknown⟩ := hmiddle.rooted.knowledge_of_value hheld
      exact (hmiddle.permits_of_lists htail second _ hlookup hknown).elim
  have hwithin := Matching.within_of_value_none (Evaluation.nested program settings depth) steps
    hprogram.isBind_eq hunknown (hmiddle.rooted.address_of_lookup hlookup)
  obtain ⟨hdone, hfailed⟩ := hnested hmiddle
  refine ⟨fun hroom ↦ ?_, fun hroom ↦ ?_⟩
  · obtain ⟨last, final, hrun, hgrows', hlast, hnumbers⟩ := hdone hroom
    cases (hgrows'.lookup hlookup).symm.trans hlast
    refine ⟨final, ?_, hgrows.trans hgrows', hgrows'.value hvalue, hnumbers⟩
    simp only [force, Matching.forceAll, run_bind, hliteral, hwithin, hrun]
    rfl
  · obtain ⟨final, hrun⟩ := hfailed hroom
    refine ⟨final, ?_⟩
    simp only [force, Matching.forceAll, run_bind, hliteral, hwithin, hrun]

omit hawaits in
/-- A list is evaluated exactly where there is room for one level more than it has cells. -/
theorem comesToList {values : List Number} (hlists : program.Lists expr values)
    (hawaits : Awaits program env values.length machine) (depth : Nat) :
    machine.ComesToList program settings env expr values depth := by
  -- The induction is on the cells; each hands one level less to its parts.
  induction hlists generalizing machine depth with
  | @nil expr hexpr =>
    have hlists : program.Lists expr [] := .nil hexpr
    have hnone := hawaits.remembered?_list hlists settings
    simp only [ComesToList, Evaluation.nested_eq,
      memoized_of_none _ hawaits.synchronize_eq hnone]
    cases depth with
    | zero => exact ⟨fun hroom ↦ absurd hroom (Nat.lt_irrefl 0), fun _ ↦ ⟨machine, rfl⟩⟩
    | succ depth =>
      refine ⟨fun _ ↦ ?_, fun hroom ↦ absurd hroom (Nat.not_succ_le_zero depth)⟩
      obtain ⟨node, nodes, store, steps, hrun, hgrows, hlookup, hvalue, hnodes, -⟩ :=
        construct settings hprogram hlists hawaits hexpr hprogram.nil depth
      cases hnodes
      refine ⟨.plain node .done, _, by rw [hrun]; rfl, ?_⟩
      simp only [store_remember]
      exact ⟨hgrows, hlookup, .nil hvalue⟩
  | @cons expr head tail value values hexpr hhead htail ih =>
    have hlists : program.Lists expr (value :: values) := .cons hexpr hhead htail
    have hnone := hawaits.remembered?_list hlists settings
    simp only [ComesToList, Evaluation.nested_eq,
      memoized_of_none _ hawaits.synchronize_eq hnone]
    cases depth with
    | zero => exact ⟨fun hroom ↦ absurd hroom (Nat.not_lt_zero _), fun _ ↦ ⟨machine, rfl⟩⟩
    | succ depth =>
      obtain ⟨node, nodes, store, steps, hrun, hgrows, hlookup, hvalue, hnodes, hwritten⟩ :=
        construct settings hprogram hlists hawaits hexpr hprogram.cons depth
      obtain ⟨first, second, hfirst, hsecond, rfl⟩ : ∃ first second,
          store.lookup? (.evaluation env head) = some first ∧
          store.lookup? (.evaluation env tail) = some second ∧ nodes = [first, second] := by
        cases hnodes with
        | cons hfirst hrest =>
          cases hrest with
          | cons hsecond hrest =>
            cases hrest
            exact ⟨_, _, hfirst, hsecond, rfl⟩
      obtain ⟨hdone, hfailed⟩ := forceAll_cell settings hprogram hhead htail
        (hwritten values.length (Nat.lt_succ_self _)) (fun hmiddle ↦ ih hmiddle depth) hfirst hsecond
        steps
      refine ⟨fun hroom ↦ ?_, fun hroom ↦ ?_⟩
      · obtain ⟨final, hforced, hgrows', hnumber, hnumbers⟩ := hdone (Nat.lt_of_succ_lt_succ hroom)
        refine ⟨.plain node .done, Machine.remember settings ⟨env, expr, .everything⟩
          (.plain node .done) final, ?_, ?_⟩
        · rw [hrun]
          simp only [run_bind, hforced]
          rfl
        · simp only [store_remember]
          exact ⟨hgrows.trans hgrows', hgrows'.lookup hlookup,
            .cons (hgrows'.value hvalue) hnumber hnumbers⟩
      · obtain ⟨final, hforced⟩ := hfailed (Nat.le_of_succ_le_succ hroom)
        refine ⟨final, ?_⟩
        rw [hrun]
        simp only [run_bind, hforced]

end Evaluation

end Machine.Awaits

/-! ## Sessions -/

theorem Program.Built.knowsLists {program : Program} (hbuilt : program.Built)
    (hnil : program.arity? .nilTag = some 0) (hcons : program.arity? .consTag = some 2) :
    program.KnowsLists :=
  ⟨hbuilt.primed.demands rfl, hnil, hcons⟩

theorem Program.BuiltFrom.built {program final : Program} (hbuilt : program.BuiltFrom final)
    (hprogram : program.Built) : final.Built := by
  induction hbuilt with
  | refl => exact hprogram
  | call call _ ih => exact .call call ih

theorem Builder.outcome_numbers {values : List Number} {program final : Program} {expr : ExprId}
    (hnumbers : Builder.numbers values program = .ok expr final) :
    (Builder.outcome (Builder.Call.numbers values).run program).2 = final := by
  have hrun : (Builder.Call.numbers values).run program = .ok () final := by
    simp only [Builder.Call.run, Functor.discard, Functor.mapConst, Function.comp, EStateM.map,
      hnumbers]
  simp only [Builder.outcome, EStateM.run, hrun]

namespace Session

variable {program : Program} {expr : ExprId} {values : List Number}

/-- A session that was just made has evaluated nothing. -/
theorem Fresh.awaits {machine : Machine} {library : EnvId} (hfresh : Fresh program machine library)
    (count : Nat) : machine.Awaits program library count where
  rooted := hfresh.opening.toRooted
  revision := by rw [hfresh.memo]
  known expr node knowledge hlookup := by
    obtain ⟨hnode, haddress⟩ := hfresh.opening.ids.1 hlookup
    rw [hfresh.opening.inputs hnode] at haddress
    cases haddress
  literal expr outcome value hfound := by
    rw [hfresh.memo] at hfound
    simp at hfound
  list expr outcome values hfound := by
    rw [hfresh.memo] at hfound
    simp at hfound

/-- In a fresh session the expression comes to the list of the numbers if the limit is above their
count, and otherwise meets the limit. -/
def YieldsNumbers (program : Program) (settings : Settings) (expr : ExprId) (values : List Number) :
    Prop :=
  ∃ session, Session.new program settings = .ok session ∧
    if values.length < settings.maxDepth then
      ∃ node final, Session.evaluate expr session = .ok node final ∧
        View.of final.store final.program node = .list (values.map .number)
    else ∃ final, Session.evaluate expr session = .error (.depthExceeded settings.maxDepth) final

theorem yieldsNumbers (hbuilt : program.Built) (hknows : program.KnowsLists)
    (hlists : program.Lists expr values) (settings : Settings) :
    YieldsNumbers program settings expr values := by
  obtain ⟨machine, library, hfresh⟩ := exists_fresh hbuilt
  obtain ⟨hdone, hfailed⟩ := Machine.Awaits.comesToList settings hknows hlists
    (hfresh.awaits values.length) settings.maxDepth
  let session : Session := ⟨program, settings, machine, {}, library⟩
  have hevaluate : Session.evaluate expr session =
      run (Evaluation.evaluate program settings library expr) session := rfl
  refine ⟨session, hfresh.new_eq settings, ?_⟩
  rw [hevaluate]
  split
  case isTrue hroom =>
    obtain ⟨outcome, final, hrun, -, -, hnumbers⟩ := hdone hroom
    refine ⟨outcome.node, { session with machine := final }, ?_, View.of_numbers hnumbers program⟩
    simp only [run, session, Evaluation.evaluate, Evaluation.under, run_bind, hrun]
    rfl
  case isFalse hroom =>
    obtain ⟨final, hrun⟩ := hfailed (Nat.le_of_not_lt hroom)
    refine ⟨{ session with machine := final }, ?_⟩
    simp only [run, session, Evaluation.evaluate, Evaluation.under, run_bind, hrun]

/-- The builder's list of some numbers is evaluated in full exactly if the limit is above their
count.  So it is whatever was built before and is built later, as long as the constructors of lists
are not declared with other arities. -/
theorem numbers_yield (values : List Number) (settings : Settings) :
    (∃ expr program, Builder.numbers values .initial = .ok expr program ∧
      YieldsNumbers program settings expr values) ∧
    ∀ before : Program, before.Built →
      ∃ expr made, Builder.numbers values before = .ok expr made ∧
        ∀ program, made.BuiltFrom program → program.arity? .nilTag = some 0 →
          program.arity? .consTag = some 2 → YieldsNumbers program settings expr values := by
  have hmade : ∀ {before made : Program} {expr : ExprId}, before.Built →
      Builder.numbers values before = .ok expr made → made.Built := by
    intro before made expr hbuilt hnumbers
    rw [← Builder.outcome_numbers hnumbers]
    exact .call (.numbers values) hbuilt
  constructor
  · obtain ⟨expr, program, hnumbers, hlists⟩ := Builder.numbers_lists values .initial
    have hsteady : program.SteadilyBuilt := by
      rw [← Builder.outcome_numbers hnumbers]
      exact .call (.numbers values) .initial trivial
    have hbuiltin := hsteady.orderly.builtins
    have hknows : program.KnowsLists := hsteady.built.knowsLists
      (hbuiltin (.nilTag, 0) (by simp [Program.builtinArities]))
      (hbuiltin (.consTag, 2) (by simp [Program.builtinArities]))
    exact ⟨expr, program, hnumbers, yieldsNumbers hsteady.built hknows hlists settings⟩
  · intro before hbefore
    obtain ⟨expr, made, hnumbers, hlists⟩ := Builder.numbers_lists values before
    refine ⟨expr, made, hnumbers, fun program hlater hnil hcons ↦ ?_⟩
    have hbuilt : program.Built := hlater.built (hmade hbefore hnumbers)
    exact yieldsNumbers hbuilt (hbuilt.knowsLists hnil hcons) (hlists.keep hlater.keepsExprs) settings

end Session

end Whence
