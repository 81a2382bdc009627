import Whence.Proofs.Groups
import Whence.Proofs.Machines

/-!
# Matching in company

If evaluation keeps the store sound and is followed by the companion, then so is matching.  A match
that succeeds is settled on the store it leaves behind, one that fails has a reason there, and the
nodes that it comes to know are reached from the node that was matched.
-/

namespace Whence

variable {program : Program} {companion : Companion program} {store : Store}

/-- Both evaluators evaluate as the rules say, and the second one follows the first. -/
def Meets (companion : Companion program) (evaluate evaluate' : Evaluator) : Prop :=
  ∀ {store env expr demand}, store.envs.Contains env →
    Tied companion (evaluate env expr demand) (evaluate' env expr demand) store
      (fun outcome final ↦ Reached program final env expr demand outcome ∧
        Covers store final [outcome.node])
      (fun error final ↦ Fails program final (.eval env expr demand) error)

/-- What matching a node comes to. -/
abbrev Matched (program : Program) (store : Store) (node : NodeId) (demand : DemandId)
    (outcome : Outcome) (final : Store) : Prop :=
  outcome.node = node ∧ Settled program final node demand outcome ∧ Covers store final [node]

/-- The same for matching a node that somebody holds. -/
def Matches (companion : Companion program)
    (matchOne matchOne' : NodeId → DemandId → Evaluating Outcome) : Prop :=
  ∀ {store node demand}, Sound program store → store.Contains node →
    (store.Exposes node ∨ ∃ value, store.value? node = some value) →
    Tied companion (matchOne node demand) (matchOne' node demand) store
      (Matched program store node demand)
      (fun error final ↦ Fails program final (.node node demand) error)

mutual

/-- A match binds names to nodes only. -/
theorem Settles.nodes (htidy : Tidy program store) {allowed : NodeId → Prop} {node : NodeId}
    {demand : DemandId} {outcome : Outcome} (hnode : store.Contains node) :
    Settles program store allowed node demand outcome →
      ∀ entry ∈ store.envs.entries outcome.env, ∃ node, entry.2 = .node node ∧ store.Contains node
  | .bind _ _ hentries, entry, hentry => by
    rw [hentries] at hentry
    cases List.mem_singleton.1 hentry
    exact ⟨node, rfl, hnode⟩
  | .everything _ _, entry, hentry => by
    rw [Outcome.plain_env, htidy.envs.entries_empty] at hentry
    cases hentry
  | .kind _ _ _, entry, hentry => by
    rw [Outcome.plain_env, htidy.envs.entries_empty] at hentry
    cases hentry
  | .constructor _ _ hvalue _ hargs, entry, hentry => by
    refine hargs.nodes htidy (htidy.within hvalue) ?_ entry hentry
    intro entry hentry
    rw [Outcome.plain_env, htidy.envs.entries_empty] at hentry
    cases hentry

theorem SettlesArgs.nodes (htidy : Tidy program store) {allowed : NodeId → Prop}
    {outcome final : Outcome} {args : List NodeId} (hargs : ∀ arg ∈ args, store.Contains arg)
    (houtcome : ∀ entry ∈ store.envs.entries outcome.env, ∃ node, entry.2 = .node node ∧
      store.Contains node) :
    SettlesArgs program store allowed outcome args final →
      ∀ entry ∈ store.envs.entries final.env, ∃ node, entry.2 = .node node ∧ store.Contains node
  | .nil, entry, hentry => houtcome entry hentry
  | .cons _ hmatched _ hentries hrest, entry, hentry => by
    refine hrest.nodes htidy (fun arg harg ↦ hargs arg (List.mem_cons_of_mem _ harg)) ?_ entry hentry
    intro entry hentry
    rw [Outcome.advance_env, hentries, List.mem_append] at hentry
    obtain hentry | hentry := hentry
    · exact hmatched.nodes htidy (hargs _ List.mem_cons_self) entry hentry
    · exact houtcome entry hentry

end

theorem Settles.node_eq {allowed : NodeId → Prop} {node : NodeId} {demand : DemandId}
    {outcome : Outcome} (hsettles : Settles program store allowed node demand outcome) :
    outcome.node = node := by
  have hargs : ∀ {start final : Outcome} {args : List NodeId},
      SettlesArgs program store allowed start args final → final.node = start.node := by
    intro start final args
    induction args generalizing start with
    | nil =>
      intro hsettles
      cases hsettles
      rfl
    | cons arg args ih =>
      intro hsettles
      cases hsettles with
      | cons _ _ _ _ hrest => exact (ih hrest).trans rfl
  cases hsettles with
  | bind _ _ _ => rfl
  | everything _ _ => rfl
  | kind _ _ _ => rfl
  | constructor _ _ _ _ hsettles => exact hargs hsettles

theorem Settles.forced {allowed : NodeId → Prop} {node : NodeId} {demand : DemandId} {next : Next}
    {outcome : Outcome} (hdemand : program.demand demand = .everything next)
    (hsettles : Settles program store allowed node demand outcome) : Forced store allowed node := by
  cases hsettles with
  | bind hdemand' _ _ => simp [hdemand] at hdemand'
  | everything _ hforced => exact hforced
  | kind _ _ haccepts => simp [hdemand, Demand.accepts?] at haccepts
  | constructor hdemand' _ _ _ _ => simp [hdemand] at hdemand'

theorem Settles.exists_value {allowed : NodeId → Prop} {node : NodeId} {demand : DemandId}
    {outcome : Outcome} (hbind : (program.demand demand).isBind = false)
    (hsettles : Settles program store allowed node demand outcome) :
    ∃ value, store.value? node = some value := by
  cases hsettles with
  | bind hdemand _ _ => simp [hdemand, Demand.isBind] at hbind
  | everything _ hforced =>
    cases hforced with
    | intro _ hvalue _ => exact ⟨_, hvalue⟩
  | kind _ hvalue _ => exact ⟨_, hvalue⟩
  | constructor _ _ hvalue _ _ => exact ⟨_, hvalue⟩

theorem Demand.eq_bind {demand : Demand} (hbind : demand.isBind = true) :
    ∃ name next, demand = .bind name next := by
  cases demand with
  | bind name next => exact ⟨name, next, rfl⟩
  | _ => cases hbind

/-- A demand that looks at a value forces it, checks its kind, matches its arguments or refuses
it. -/
theorem Demand.view (demand : Demand) (value : Value) (hbind : demand.isBind = false) :
    (∃ next, demand = .everything next) ∨ (∃ next, demand.accepts? value = some next) ∨
    (∃ cases tag args next, demand = .constructor cases ∧ value = .constructor tag args ∧
      cases.lookup tag = some next) ∨ demand.rejects value = true := by
  cases demand with
  | bind _ _ => simp [isBind] at hbind
  | everything next => exact .inl ⟨next, rfl⟩
  | number next =>
    cases value with
    | number _ => exact .inr (.inl ⟨next, rfl⟩)
    | _ => exact .inr (.inr (.inr rfl))
  | text next =>
    cases value with
    | text _ => exact .inr (.inl ⟨next, rfl⟩)
    | _ => exact .inr (.inr (.inr rfl))
  | function next =>
    cases value with
    | closure _ => exact .inr (.inl ⟨next, rfl⟩)
    | primitive _ => exact .inr (.inl ⟨next, rfl⟩)
    | _ => exact .inr (.inr (.inr rfl))
  | constructor cases =>
    cases value with
    | constructor tag args =>
      cases hcase : cases.lookup tag with
      | some next => exact .inr (.inr (.inl ⟨cases, tag, args, next, rfl, rfl, hcase⟩))
      | none => exact .inr (.inr (.inr (by simp [rejects, hcase])))
    | _ => exact .inr (.inr (.inr rfl))

namespace Matching

variable {matchOne : NodeId → DemandId → Evaluating Outcome} {node : NodeId} {demand : DemandId}
  {known : Value}

theorem value_of_everything {next : Next} (hdemand : program.demand demand = .everything next) :
    Matching.value program matchOne node demand known = (do
      forceAll (fun part ↦ matchOne part .everything) known.parts
      pure (.plain node next)) := by
  cases known <;> simp only [Matching.value, hdemand] <;> rfl

theorem value_of_accepts {next : Next} (haccepts : (program.demand demand).accepts? known = some next) :
    Matching.value program matchOne node demand known = pure (.plain node next) := by
  cases hdemand : program.demand demand <;> cases known <;>
    simp_all [Demand.accepts?, Matching.value]

theorem value_of_case {cases : List (Symbol × Next)} {tag : Symbol} {args : List NodeId}
    {next : Next} (hdemand : program.demand demand = .constructor cases)
    (hcase : cases.lookup tag = some next) :
    Matching.value program matchOne node demand (.constructor tag args) =
      arguments program args.length matchOne (.plain node next) args := by
  simp only [Matching.value, hdemand, hcase]

theorem value_of_rejects (hrejects : (program.demand demand).rejects known = true) :
    Matching.value program matchOne node demand known = throw (mismatch program demand known) := by
  cases hdemand : program.demand demand <;> cases known <;> rw [hdemand] at hrejects <;>
    first
    | (simp only [Matching.value, hdemand]; done)
    | simp only [Matching.value, hdemand, Option.isNone_iff_eq_none.1 hrejects]
    | cases hrejects

/-- A demand that binds nothing looks at the value, or evaluates the node if there is none. -/
theorem within_succ (evaluate : Evaluator) (steps : Nat)
    (hbind : (program.demand demand).isBind = false) :
    within program evaluate (steps + 1) node demand = (do
      match ← Machine.inspect fun store ↦ store.value? node with
      | some known => Matching.value program (within program evaluate steps) node demand known
      | none =>
        match ← Machine.inspect fun store ↦ store.address node with
        | .evaluation env expr => evaluate env expr demand
        | address => throw (.unevaluated address)) := by
  unfold within
  split
  · rename_i hdemand
    simp [hdemand, Demand.isBind] at hbind
  · rfl

theorem within_of_value (evaluate : Evaluator) (steps : Nat)
    (hbind : (program.demand demand).isBind = false) {machine : Machine}
    (hvalue : machine.store.value? node = some known) :
    within program evaluate (steps + 1) node demand machine =
      Matching.value program (within program evaluate steps) node demand known machine := by
  rw [within_succ evaluate steps hbind]
  simp only [run_bind, Machine.run_inspect, hvalue]

/-- A node without a value is evaluated at its address. -/
theorem within_of_value_none (evaluate : Evaluator) (steps : Nat)
    (hbind : (program.demand demand).isBind = false) {machine : Machine} {env : EnvId} {expr : ExprId}
    (hvalue : machine.store.value? node = none)
    (haddress : machine.store.address node = .evaluation env expr) :
    within program evaluate (steps + 1) node demand machine = evaluate env expr demand machine := by
  rw [within_succ evaluate steps hbind]
  simp only [run_bind, Machine.run_inspect, hvalue, haddress]

theorem within_bind (evaluate : Evaluator) (steps : Nat) {name : Symbol} {next : Next}
    (hdemand : program.demand demand = .bind name next) :
    within program evaluate (steps + 1) node demand = bind node name next := by
  simp only [within, hdemand]

/-- There is always room for one match. -/
theorem node_eq (reach : Nat) (evaluate : Evaluator) {machine : Machine} (demand : DemandId)
    (hnode : machine.store.Contains node) :
    ∃ steps, Matching.node program reach evaluate node demand machine =
      within program evaluate (steps + 1) node demand machine := by
  obtain ⟨steps, hsteps⟩ : ∃ steps,
      machine.store.size + program.demands.size + reach = steps + 1 := by
    have hsize : node.index < machine.store.size := hnode
    exact Nat.exists_eq_succ_of_ne_zero (by omega)
  refine ⟨steps, ?_⟩
  rw [Matching.node, run_bind, Machine.run_inspect]
  dsimp only
  rw [hsteps]

/-- A known value is matched at once. -/
theorem node_of_value (reach : Nat) (evaluate : Evaluator) {machine : Machine}
    (hbind : (program.demand demand).isBind = false)
    (hvalue : machine.store.value? node = some known) :
    ∃ steps, Matching.node program reach evaluate node demand machine =
      Matching.value program (within program evaluate steps) node demand known machine := by
  obtain ⟨steps, hnode⟩ := node_eq reach evaluate demand (Store.contains_of_value hvalue)
  exact ⟨steps, hnode.trans (within_of_value evaluate steps hbind hvalue)⟩

/-- A known value without parts is there to the bottom. -/
theorem node_of_flat (hregular : program.Regular) (reach : Nat) (evaluate : Evaluator)
    {machine : Machine} (hvalue : machine.store.value? node = some known) (hparts : known.parts = []) :
    Matching.node program reach evaluate node .everything machine =
      .ok (.plain node .done) machine := by
  obtain ⟨steps, hmatch⟩ := node_of_value reach evaluate hregular.isBind_everything hvalue
  rw [hmatch, value_of_everything hregular.everything, hparts]
  rfl

end Matching

variable {matchOne matchOne' : NodeId → DemandId → Evaluating Outcome}

theorem Tied.forceAll (hregular : program.Regular) (hmatches : Matches companion matchOne matchOne')
    {parts : List NodeId} (hparts : ∀ part ∈ parts, store.Contains part ∧ store.Exposes part)
    (hsound : Sound program store) :
    Tied companion (Matching.forceAll (fun part ↦ matchOne part .everything) parts)
      (Matching.forceAll (fun part ↦ matchOne' part .everything) parts) store
      (fun _ final ↦ (∀ part ∈ parts, Forced final (fun _ ↦ True) part) ∧
        Covers store final parts)
      (fun error final ↦ Fails program final (.all parts) error) := by
  induction parts generalizing store with
  | nil => exact Tied.of_pure ⟨fun part hpart ↦ absurd hpart List.not_mem_nil, .refl _ _⟩
  | cons part parts ih =>
    obtain ⟨hcontains, hexposes⟩ := hparts part List.mem_cons_self
    refine Tied.bind ((hmatches hsound hcontains (.inl hexposes)).mono
      (fun _ _ hmatched ↦ hmatched) fun _ _ hfail ↦ .part hfail) ?_
    rintro outcome middle hgrows hsound' ⟨-, hsettled, hcovers⟩
    have hparts' : ∀ part ∈ parts, middle.Contains part ∧ middle.Exposes part := by
      intro part hpart
      obtain ⟨hcontains, hexposes⟩ := hparts part (List.mem_cons_of_mem _ hpart)
      exact ⟨hgrows.contains hcontains, hexposes.grow hgrows⟩
    refine (ih hparts' hsound').mono ?_ ?_
    · rintro _ final hgrows' _ ⟨hforced, hcovers'⟩
      refine ⟨fun other hother ↦ ?_, hcovers.trans hsound'.toRooted hgrows' hcovers'⟩
      cases hother with
      | head => exact (hsettled.forced hregular.everything).grow hgrows' fun _ _ ↦ trivial
      | tail _ hother => exact hforced other hother
    · intro error final hgrows' _ hfail
      exact .parts (hsettled.grow hsound'.envs hgrows' fun _ _ ↦ trivial) hfail

theorem Tied.arguments (hmatches : Matches companion matchOne matchOne') (count : Nat)
    {outcome : Outcome} {args : List NodeId}
    (hargs : ∀ arg ∈ args, store.Contains arg ∧ store.Exposes arg)
    (houtcome : store.envs.Contains outcome.env) (hsound : Sound program store) :
    Tied companion (Matching.arguments program count matchOne outcome args)
      (Matching.arguments companion.other count matchOne' outcome args) store
      (fun reached final ↦ SettlesArgs program final (fun _ ↦ True) outcome args reached ∧
        Covers store final args)
      (fun error final ↦ Fails program final (.args count outcome args) error) := by
  induction args generalizing store outcome with
  | nil => exact Tied.of_pure ⟨.nil, .refl _ _⟩
  | cons arg args ih =>
    obtain ⟨hcontains, hexposes⟩ := hargs arg List.mem_cons_self
    simp only [Matching.arguments, companion.demand_eq]
    cases hnext : outcome.next with
    | done => exact Tied.of_throw (.stopsEarly (by simp [hnext]))
    | body body => exact Tied.of_throw (.stopsEarly (by simp [hnext]))
    | demand demand =>
      refine Tied.bind ((hmatches hsound hcontains (.inl hexposes)).mono
        (fun _ _ hmatched ↦ hmatched) fun _ _ hfail ↦ .arg hnext hfail) ?_
      rintro matched middle hgrows hsound' ⟨hnode, hsettled, hcovers⟩
      refine Tied.bind (Tied.concat hsound' (hgrows.envs.contains houtcome)
        (hsettled.nodes hsound'.toTidy (hgrows.contains hcontains))) ?_
      intro env middle' hgrows' hsound'' hbound
      have hsettled' : Settled program middle' arg demand matched :=
        hsettled.grow hsound'.envs hgrows' fun _ _ ↦ trivial
      have hentries : middle'.envs.entries env =
          middle'.envs.entries matched.env ++ middle'.envs.entries outcome.env := by
        rw [hbound.entries, hgrows'.envs.entries_eq (hsettled.contains_env hsound'.envs)]
      have hargs' : ∀ arg ∈ args, middle'.Contains arg ∧ middle'.Exposes arg := by
        intro arg harg
        obtain ⟨hcontains, hexposes⟩ := hargs arg (List.mem_cons_of_mem _ harg)
        exact ⟨(hgrows.trans hgrows').contains hcontains, hexposes.grow (hgrows.trans hgrows')⟩
      have hcovers' := hcovers.trans hsound'.toRooted hgrows' hbound.covers
      have hnext' : middle'.envs.Contains (outcome.advance program arg demand matched env).env :=
        hbound.contains
      refine (ih hargs' hnext' hsound'').mono ?_ ?_
      · rintro reached final hgrows'' _ ⟨hrest, hcovers''⟩
        refine ⟨.cons hnext (hsettled'.grow hsound''.envs hgrows'' fun _ _ ↦ trivial)
          (hgrows''.envs.contains hbound.contains) ?_ hrest,
          hcovers'.trans hsound''.toRooted hgrows'' hcovers''⟩
        rw [hgrows''.envs.entries_eq hbound.contains,
          hgrows''.envs.entries_eq (hsettled'.contains_env hsound''.envs),
          hgrows''.envs.entries_eq ((hgrows.trans hgrows').envs.contains houtcome), hentries]
      · intro error final hgrows'' _ hfail
        refine .args hnext (hsettled'.grow hsound''.envs hgrows'' fun _ _ ↦ trivial) ?_ hfail
        rw [hgrows''.envs.entries_eq hbound.contains,
          hgrows''.envs.entries_eq (hsettled'.contains_env hsound''.envs),
          hgrows''.envs.entries_eq ((hgrows.trans hgrows').envs.contains houtcome), hentries]

/-! ## Nodes -/

theorem Tied.value (hregular : program.Regular) (hmatches : Matches companion matchOne matchOne')
    {node : NodeId} {demand : DemandId} {value : Value} (hsound : Sound program store)
    (hvalue : store.value? node = some value) (hbind : (program.demand demand).isBind = false) :
    Tied companion (Matching.value program matchOne node demand value)
      (Matching.value companion.other matchOne' node demand value) store
      (Matched program store node demand)
      (fun error final ↦ Fails program final (.node node demand) error) := by
  obtain ⟨explanation, hknown⟩ := hsound.knowledge_of_value hvalue
  -- The parts of a value are references of the node.
  have hthrough : ∀ {final : Store}, store.Grows final → Sound program final →
      Covers store final value.parts → Covers store final [node] := by
    intro final hgrows hsound' hcovers
    refine hcovers.through hsound'.toTidy fun part hpart ↦ .inr ?_
    rw [Store.references_of_knowledge (hgrows.knowledge hknown)]
    cases value <;> first | exact List.mem_append_left _ hpart | cases hpart
  have hparts : ∀ part ∈ value.parts, store.Contains part ∧ store.Exposes part := by
    intro part hpart
    cases value with
    | constructor tag args =>
      exact ⟨hsound.within hvalue part hpart, .inr ⟨node, tag, args, hvalue, hpart⟩⟩
    | _ => cases hpart
  obtain ⟨next, hdemand⟩ | ⟨next, haccepts⟩ | ⟨cases, tag, args, next, hdemand, rfl, hcase⟩ |
    hrejects := Demand.view (program.demand demand) value hbind
  · rw [Matching.value_of_everything hdemand,
      Matching.value_of_everything ((companion.demand_eq demand).trans hdemand)]
    refine Tied.bind ((Tied.forceAll hregular hmatches hparts hsound).mono
      (fun _ _ hforced ↦ hforced) ?_) ?_
    · intro error final hgrows _ hfail
      exact .everything hdemand (hgrows.value hvalue) hfail
    · rintro - final hgrows hsound' ⟨hforced, hcovers⟩
      refine Tied.of_pure ⟨rfl, .everything hdemand (.intro trivial (hgrows.value hvalue) hforced),
        hthrough hgrows hsound' hcovers⟩
  · rw [Matching.value_of_accepts haccepts, Matching.value_of_accepts (by
      rwa [companion.demand_eq])]
    exact Tied.of_pure ⟨rfl, .kind trivial hvalue haccepts, .refl _ _⟩
  · rw [Matching.value_of_case hdemand hcase,
      Matching.value_of_case ((companion.demand_eq demand).trans hdemand) hcase]
    refine (Tied.arguments hmatches args.length hparts hsound.envs.contains_empty hsound).mono ?_ ?_
    · rintro outcome final hgrows hsound' ⟨hargs, hcovers⟩
      have hsettled : Settled program final node demand outcome :=
        .constructor hdemand trivial (hgrows.value hvalue) hcase hargs
      exact ⟨hsettled.node_eq, hsettled, hthrough hgrows hsound' hcovers⟩
    · intro error final hgrows _ hfail
      exact .constructor hdemand (hgrows.value hvalue) hcase hfail
  · rw [Matching.value_of_rejects hrejects, Matching.value_of_rejects (by
      rwa [companion.demand_eq]), companion.mismatch_eq]
    exact Tied.of_throw (.mismatch hvalue hrejects)

theorem Tied.bindNode {node : NodeId} {demand : DemandId} {name : Symbol} {next : Next}
    {fail : Error → Store → Prop} (hsound : Sound program store) (hnode : store.Contains node)
    (hdemand : program.demand demand = .bind name next) :
    Tied companion (Matching.bind node name next) (Matching.bind node name next) store
      (Matched program store node demand) fail := by
  refine Tied.bind (Tied.singleton hsound name hnode) ?_
  intro env final hgrows hsound' hbound
  refine Tied.of_pure ⟨rfl, .bind hdemand hbound.contains ?_, hbound.covers.mono (by simp)⟩
  rw [hbound.entries, hsound'.envs.entries_empty]
  rfl

variable {evaluate evaluate' : Evaluator}

theorem Matches.within (hregular : program.Regular) (hmeets : Meets companion evaluate evaluate')
    (steps : Nat) :
    Matches companion (Matching.within program evaluate steps)
      (Matching.within companion.other evaluate' steps) := by
  induction steps with
  | zero => exact fun _ _ _ ↦ Tied.of_limit rfl fun _ ↦ rfl
  | succ steps ih =>
    intro store node demand hsound hnode hheld
    cases hbind : (program.demand demand).isBind with
    | true =>
      obtain ⟨name, next, hdemand⟩ := Demand.eq_bind hbind
      rw [Matching.within_bind evaluate steps hdemand,
        Matching.within_bind evaluate' steps ((companion.demand_eq demand).trans hdemand)]
      exact Tied.bindNode hsound hnode hdemand
    | false =>
      rw [Matching.within_succ evaluate steps hbind,
        Matching.within_succ evaluate' steps (by rwa [companion.demand_eq])]
      cases hvalue : store.value? node with
      | some value =>
        refine Tied.inspect (fun hstore _ _ htie ↦ ?_) ?_
        · rw [hvalue]
          exact companion.value htie (hstore ▸ hvalue)
        · rw [hvalue]
          exact Tied.value hregular ih hsound hvalue hbind
      | none =>
        have hexposes : store.Exposes node := by
          obtain hexposes | ⟨value, hknown⟩ := hheld
          · exact hexposes
          · rw [hvalue] at hknown
            cases hknown
        refine Tied.inspect_of_ends (fun hstore _ hgrows hagree hends htie ↦ ?_) ?_
        · subst hstore
          rw [hvalue]
          -- If the match comes to something, the node has a value in the end.
          exact companion.delayed htie hsound.toTidy hgrows hagree hexposes hvalue
            (hends.imp_right fun ⟨_, hmatched⟩ ↦ hmatched.2.1.exists_value hbind)
        · rw [hvalue]
          refine Tied.inspect (fun hstore _ _ htie ↦ ?_) ?_
          · rw [(companion.alike htie).address, hstore]
          · cases haddress : store.address node with
            | input source =>
              obtain ⟨-, value, hknown, -⟩ := hsound.input hnode haddress
              rw [Store.value?_of_knowledge hknown] at hvalue
              cases hvalue
            | evaluation env expr =>
              have henv := (hsound.evaluation hnode haddress).1
              refine (hmeets henv).mono ?_ ?_
              · rintro outcome final hgrows _ ⟨hreached, hcovers⟩
                have hsame : outcome.node = node := by
                  have hlookup := hsound.lookup_address hnode
                  rw [haddress] at hlookup
                  have hlookup' := hgrows.lookup hlookup
                  rw [hreached.lookup] at hlookup'
                  exact Option.some.inj hlookup'
                exact ⟨hsame, hsame ▸ hreached.settled, hsame ▸ hcovers⟩
              · intro error final hgrows _ hfail
                exact .evaluation ((hgrows.address_eq hnode).trans haddress) hfail

theorem Matches.node (hregular : program.Regular) (hmeets : Meets companion evaluate evaluate')
    (reach : Nat) :
    Matches companion (Matching.node program reach evaluate)
      (Matching.node companion.other reach evaluate') := by
  intro store node demand hsound hnode hheld
  refine Tied.inspect (fun hstore _ _ htie ↦ ?_) ?_
  · rw [(companion.alike htie).size, hstore]
  · rw [companion.demands_eq]
    exact Matches.within hregular hmeets _ hsound hnode hheld

end Whence
