import Whence.Proofs.Clauses.Interning
import Whence.Proofs.Matching

/-!
# Matching along a path

Matching a complete node against a demand made from clauses walks a path of the demand.  Nothing is
evaluated on the way.  Either the match comes to the end of a path that the node passes and binds
what the tests bind, or the node passes no path and the demand is refused.
-/

namespace Whence

open Program Test

variable {program : Program} {arities : Symbol → Option Nat} {store : Store} {layer : Demand}
  {test other : Test} {next following last : Next} {tests : List Test} {body : ExprId}
  {count : Nat} {node : NodeId} {nodes left : List NodeId} {bindings : Bindings}

namespace Program

/-- A node passes one test of a layer at most. -/
theorem Passes.eq_of_meets (hindexed : program.symbols.Indexed)
    (hpasses : program.Passes layer test next) (hother : program.Passes layer other following)
    (hmeets : (test.meets? program store node).isSome)
    (hmeets' : (other.meets? program store node).isSome) : other = test := by
  cases hpasses with
  | bind hname =>
    cases hother with
    | bind hname' => exact congrArg Test.bind (hindexed.injective hname' hname)
  | number | text | function =>
    cases hother
    rfl
  | constructor _ _ =>
    cases hother with
    | constructor _ _ =>
      -- Both tags have the symbol that the value has.
      cases hvalue : store.value? node with
      | none => simp [meets?, hvalue] at hmeets
      | some value =>
        cases value with
        | constructor found args =>
          simp only [meets?, hvalue, Option.isSome_ite] at hmeets hmeets'
          exact congrArg Test.constructor (hindexed.injective hmeets' hmeets)
        | _ => simp [meets?, hvalue] at hmeets

/-- A complete node that passes a test has as many parts as are to be looked at next. -/
theorem Passes.parts_of_meets (hpasses : program.Passes layer test next)
    (hproper : layer.IsProper program arities) (hcomplete : store.Complete arities node)
    {bound : Bindings} {parts : List NodeId}
    (hmeets : test.meets? program store node = some (bound, parts)) :
    parts.length = test.width program arities ∧ ∀ part ∈ parts, store.Complete arities part := by
  obtain ⟨value, hvalue, -⟩ := hcomplete.exists_value
  cases hpasses with
  | bind _ =>
    cases hmeets
    exact ⟨rfl, nofun⟩
  | number | text | function =>
    cases value <;> simp only [meets?, hvalue, reduceCtorEq] at hmeets <;> cases hmeets <;>
      exact ⟨rfl, nofun⟩
  | @constructor tag symbol cases next hsymbol hlookup =>
    cases value with
    | constructor found args =>
      simp only [meets?, hvalue, hsymbol, Option.ite_none_right_eq_some, Option.some.injEq,
        Prod.mk.injEq] at hmeets
      obtain ⟨rfl, -, rfl⟩ := hmeets
      obtain ⟨-, harity⟩ := hproper.2.2 _ (Environments.mem_of_lookup hlookup)
      obtain ⟨arity, harity⟩ := Option.isSome_iff_exists.1 harity
      refine ⟨?_, hcomplete.args hvalue⟩
      rw [hcomplete.length_args hvalue harity, Test.width, hsymbol, Option.bind_some, harity,
        Option.getD_some]
    | _ => simp [meets?, hvalue] at hmeets

/-- Whoever walks a path reads the nodes that are left. -/
theorem Path.reads (hpath : program.Path next tests last)
    (hreads : program.Reads arities (nodes.length + count) next)
    (hcomplete : ∀ node ∈ nodes, store.Complete arities node)
    (hwalk : walk? program store tests nodes = some (bindings, left)) :
    program.Reads arities (left.length + count) last := by
  induction hpath generalizing nodes bindings with
  | nil =>
    cases hwalk
    exact hreads
  | cons hpasses _ ih =>
    cases nodes with
    | nil => cases hwalk
    | cons node nodes =>
      obtain ⟨bound, parts, rest, hmeets, hrest, rfl⟩ := walk?_cons.1 hwalk
      obtain ⟨hnode, hnodes⟩ := List.forall_mem_cons.1 hcomplete
      rw [List.length_cons, Nat.add_right_comm] at hreads
      obtain ⟨hlength, hparts⟩ := hpasses.parts_of_meets hreads.proper hnode hmeets
      refine ih ?_ (fun part hpart ↦ ?_) hrest
      · rw [List.length_append, hlength, Nat.add_assoc]
        exact hreads.after hpasses
      · exact (List.mem_append.1 hpart).elim (hparts part) (hnodes part)

/-- All routes that the nodes pass go on from where a path ends that they pass. -/
theorem Path.extends_of_walk (hindexed : program.symbols.Indexed) {front : List Test}
    (hpath : program.Path next front last)
    (hwalk : walk? program store front nodes = some (bindings, left))
    (hroutes : program.Routes next tests body) {more : List NodeId}
    (hsome : (walk? program store tests (nodes ++ more)).isSome) :
    ∃ back, tests = front ++ back ∧ program.Routes last back body ∧
      (walk? program store back (left ++ more)).isSome := by
  induction hpath generalizing nodes bindings tests with
  | nil =>
    cases hwalk
    exact ⟨tests, rfl, hroutes, hsome⟩
  | cons hpasses _ ih =>
    cases nodes with
    | nil => cases hwalk
    | cons node nodes =>
      obtain ⟨bound, parts, rest, hmeets, hrest, rfl⟩ := walk?_cons.1 hwalk
      cases hroutes with
      | cons hother hroutes =>
        obtain ⟨⟨_, _⟩, hwalk'⟩ := Option.isSome_iff_exists.1 hsome
        rw [List.cons_append] at hwalk'
        obtain ⟨_, parts', _, hmeets', hrest', -⟩ := walk?_cons.1 hwalk'
        have hsame := hpasses.eq_of_meets hindexed hother (by rw [hmeets]; rfl) (by rw [hmeets']; rfl)
        subst hsame
        cases hpasses.unique hother
        rw [hmeets] at hmeets'
        cases hmeets'
        obtain ⟨back, rfl, hback, hsome'⟩ := ih hrest hroutes (by
          rw [List.append_assoc, hrest']
          rfl)
        exact ⟨back, rfl, hback, hsome'⟩

/-- What follows on a path has been made before. -/
theorem Path.index_le (hinterned : program.Interned) (hpath : program.Path next tests last)
    (hreads : program.Reads arities count next) {bound : Nat}
    (hnext : ∀ demand, next = .demand demand → demand.index < bound) :
    ∀ demand, last = .demand demand → demand.index < bound := by
  induction hpath generalizing count with
  | nil => exact hnext
  | @cons demand test following last tests hpasses _ ih =>
    obtain ⟨rest, rfl⟩ := hreads.exists_count
    refine ih (hreads.after hpasses) ?_
    rintro later rfl
    have hearlier := hinterned.earlier hreads.exists_layer hpasses.mem_nexts
    have hdemand := hnext demand rfl
    omega

end Program

/-- The entries are the bindings, under the symbols of their names. -/
def Spells (program : Program) (entries : List (Symbol × Binding)) (bindings : Bindings) : Prop :=
  entries.map (fun entry ↦ (some entry.1, entry.2)) =
    bindings.map fun binding ↦ (program.symbol? binding.1, Binding.node binding.2)

theorem Spells.append {inner outer : List (Symbol × Binding)} {more : Bindings}
    (hinner : Spells program inner bindings) (houter : Spells program outer more) :
    Spells program (inner ++ outer) (bindings ++ more) := by
  unfold Spells at hinner houter ⊢
  rw [List.map_append, List.map_append, hinner, houter]

/-! ## Matching -/

/-- The match comes to the end of a path that the nodes pass and has bound what the tests bind, or it
is refused and the nodes pass no route. -/
inductive Decides (program : Program) (store : Store) (memo : Memo) (envs : Environments)
    (next : Next) (nodes : List NodeId) (start : List (Symbol × Binding)) (node : NodeId) :
    EStateM.Result Error Machine Outcome → Prop
  | ok {outcome : Outcome} {envs' : Environments} {front : List Test} {bindings : Bindings}
      {entries : List (Symbol × Binding)} : envs.Grows envs' → envs'.Canonical →
      envs'.Contains outcome.env → outcome.node = node → program.Path next front outcome.next →
      walk? program store front nodes = some (bindings, []) →
      envs'.entries outcome.env = entries ++ start → Spells program entries bindings.reverse →
      Decides program store memo envs next nodes start node
        (.ok outcome ⟨{ store with envs := envs' }, memo⟩)
  | refused {expected found : String} {machine : Machine} :
      (∀ tests body more, program.Routes next tests body →
        walk? program store tests (nodes ++ more) = none) →
      Decides program store memo envs next nodes start node
        (.error (.demandMismatch expected found) machine)

/-- A match that has come along a path is decided by how it goes on. -/
theorem Decides.prepend (hindexed : program.symbols.Indexed) {memo : Memo}
    {envs envs' : Environments} (hgrows : envs.Grows envs') {front : List Test}
    (hpath : program.Path next front following)
    (hwalk : walk? program store front nodes = some (bindings, left))
    {entries start : List (Symbol × Binding)} (hspells : Spells program entries bindings.reverse)
    {result : EStateM.Result Error Machine Outcome}
    (hrest : Decides program store memo envs' following left (entries ++ start) node result) :
    Decides program store memo envs next nodes start node result := by
  cases hrest with
  | ok hgrows' hcanonical hcontains hnode hpath' hwalk' hentries hspells' =>
    refine .ok (hgrows.trans hgrows') hcanonical hcontains hnode (hpath.append hpath')
      (walk?_append.2 ⟨_, _, _, hwalk, hwalk', rfl⟩) (hentries.trans (List.append_assoc ..).symm) ?_
    rw [List.reverse_append]
    exact hspells'.append hspells
  | refused hnone =>
    refine .refused fun tests body more hroutes ↦ Option.not_isSome_iff_eq_none.1 fun hsome ↦ ?_
    obtain ⟨back, -, hback, hsome'⟩ := hpath.extends_of_walk hindexed hwalk hroutes hsome
    rw [hnone back body more hback] at hsome'
    cases hsome'

namespace Matching

/-- Matches of complete nodes are decided, as long as the number of the demand is below the bound. -/
def DecidesBelow (program : Program) (store : Store) (memo : Memo) (arities : Symbol → Option Nat)
    (steps : Nat) (matchOne : NodeId → DemandId → Evaluating Outcome) : Prop :=
  ∀ {envs : Environments} {node : NodeId} {demand : DemandId} {count : Nat}, envs.Canonical →
    store.Complete arities node → program.Reads arities (count + 1) (.demand demand) →
      demand.index < steps → Decides program store memo envs (.demand demand) [node] [] node
        (matchOne node demand ⟨{ store with envs }, memo⟩)

variable {memo : Memo} {envs : Environments} {demand : DemandId} {known : Value} {steps : Nat}
  {matchOne : NodeId → DemandId → Evaluating Outcome}

/-- Binding decides a match at once. -/
theorem bind_decides (henvs : envs.Canonical) {name : Symbol}
    (hdemand : program.demand demand = .bind name next) (hnames : program.Names name) :
    Decides program store memo envs (.demand demand) [node] [] node
      (bind node name next ⟨{ store with envs }, memo⟩) := by
  obtain ⟨text, htext⟩ := hnames
  have hpasses : program.Passes (program.demand demand) (.bind text) next := hdemand ▸ .bind htext
  have hrun : bind node name next ⟨{ store with envs }, memo⟩ =
      .ok ⟨node, (envs.extend .empty name (.node node)).1, next, []⟩
        ⟨{ store with envs := (envs.extend .empty name (.node node)).2 }, memo⟩ := rfl
  have hentries : (envs.extend .empty name (.node node)).2.entries
      (envs.extend .empty name (.node node)).1 = [(name, .node node)] ++ [] := by
    rw [Environments.entries_extend henvs, henvs.entries_empty]
    rfl
  rw [hrun]
  refine .ok (Environments.extend_grows envs .empty name (.node node))
    (Environments.extend_canonical henvs henvs.contains_empty name (.node node))
    (Environments.contains_extend henvs .empty name (.node node)) rfl (.cons hpasses .nil) rfl
    hentries ?_
  simp [Spells, htext]

section Arguments

variable {outcome matched : Outcome} {arg : NodeId} {args : List NodeId} {machine final : Machine}
  {total : Nat}

/-- An argument that is refused ends the match. -/
theorem arguments_of_error {error : Error} (hnext : outcome.next = .demand demand)
    (hrun : matchOne arg demand machine = .error error final) :
    arguments program total matchOne outcome (arg :: args) machine = .error error final := by
  simp only [arguments, hnext, Bind.bind, EStateM.bind, hrun]

/-- After an argument has been matched, the match goes on with what it has bound. -/
theorem arguments_of_ok (hnext : outcome.next = .demand demand)
    (hrun : matchOne arg demand machine = .ok matched final) :
    arguments program total matchOne outcome (arg :: args) machine =
      arguments program total matchOne (outcome.advance program arg demand matched
        (final.store.concat matched.env outcome.env).1) args
        ⟨(final.store.concat matched.env outcome.env).2, final.memo⟩ := by
  simp only [arguments, hnext, Bind.bind, EStateM.bind, hrun]
  rfl

end Arguments

/-- Going on with the arguments decides what was decided up to there. -/
theorem arguments_decides (hinterned : program.Interned)
    (hone : DecidesBelow program store memo arities steps matchOne)
    (total : Nat) (outcome : Outcome) {args : List NodeId} (henvs : envs.Canonical)
    (houtcome : envs.Contains outcome.env)
    (hcomplete : ∀ arg ∈ args, store.Complete arities arg)
    (hreads : program.Reads arities (args.length + count) outcome.next)
    (hindex : ∀ demand, outcome.next = .demand demand → demand.index < steps) :
    Decides program store memo envs outcome.next args (envs.entries outcome.env) outcome.node
      (arguments program total matchOne outcome args ⟨{ store with envs }, memo⟩) := by
  induction args generalizing envs outcome with
  | nil => exact .ok (.refl envs) henvs houtcome rfl .nil rfl (List.nil_append _).symm rfl
  | cons arg args ih =>
    obtain ⟨harg, hargs⟩ := List.forall_mem_cons.1 hcomplete
    rw [List.length_cons, Nat.add_right_comm] at hreads
    obtain ⟨demand, hnext⟩ := hreads.eq_demand
    have hfirst := hone henvs harg (hnext ▸ hreads) (hindex demand hnext)
    rw [hnext] at hreads hindex ⊢
    cases hrun : matchOne arg demand ⟨{ store with envs }, memo⟩ with
    | error error machine =>
      rw [hrun] at hfirst
      rw [arguments_of_error hnext hrun]
      cases hfirst with
      | refused hnone => exact .refused fun tests body more ↦ hnone tests body (args ++ more)
    | ok matched machine =>
      rw [hrun] at hfirst
      cases hfirst with
      | @ok _ envs' front bindings entries hgrows hcanonical hcontains hnode hpath hwalk hentries
          hspells =>
        have hsingle : program.Reads arities ([arg].length + (args.length + count))
            (.demand demand) := by
          rwa [List.length_singleton, Nat.add_comm]
        have hmatched := hpath.reads hsingle (by simpa using harg) hwalk
        rw [List.length_nil, Nat.zero_add] at hmatched
        -- What the argument has bound comes in front of what was bound before.
        obtain ⟨hgrows', hcanonical', hcontains', hentries'⟩ :=
          Environments.extendAll_spec (envs'.entries matched.env).reverse hcanonical
            (hgrows.contains houtcome)
        rw [List.reverse_reverse, hgrows.entries_eq houtcome] at hentries'
        have hbound := hentries'.trans (congrArg (· ++ envs.entries outcome.env) hentries)
        rw [List.append_nil] at hbound
        rw [arguments_of_ok hnext hrun]
        have hrest := ih (outcome.advance program arg demand matched _) hcanonical' hcontains' hargs
          hmatched (hpath.index_le hinterned hreads hindex)
        rw [Outcome.advance_env, hbound] at hrest
        exact hrest.prepend hinterned.symbols (hgrows.trans hgrows') hpath
          (walk?_nodes_append hwalk args) hspells

/-- A layer that accepts the kind of a value makes a test that the node passes. -/
theorem passes_of_accepts (haccepts : layer.accepts? known = some next)
    (hvalue : store.value? node = some known) :
    ∃ test, program.Passes layer test next ∧ test.meets? program store node = some ([], []) := by
  cases layer <;> cases known <;> cases haccepts
  · exact ⟨.number, .number, by simp [meets?, hvalue]⟩
  · exact ⟨.text, .text, by simp [meets?, hvalue]⟩
  · exact ⟨.function, .function, by simp [meets?, hvalue]⟩
  · exact ⟨.function, .function, by simp [meets?, hvalue]⟩

/-- A node passes no test of a layer that rejects its value. -/
theorem meets?_of_rejects (hrejects : layer.rejects known = true)
    (hvalue : store.value? node = some known) (hpasses : program.Passes layer test next) :
    test.meets? program store node = none := by
  cases hpasses with
  | bind _ => cases hrejects
  | number | text | function =>
    cases known <;> simp_all [meets?, Demand.rejects, Demand.accepts?]
  | constructor hsymbol hlookup =>
    cases known with
    | constructor found args =>
      simp only [meets?, hvalue, hsymbol, Option.some.injEq]
      refine if_neg ?_
      rintro rfl
      simp [Demand.rejects, hlookup] at hrejects
    | _ => simp [meets?, hvalue]

theorem value_decides (hinterned : program.Interned)
    (hone : DecidesBelow program store memo arities steps matchOne)
    (henvs : envs.Canonical) (hcomplete : store.Complete arities node)
    (hreads : program.Reads arities (count + 1) (.demand demand)) (hindex : demand.index < steps + 1)
    (hbind : (program.demand demand).isBind = false) (hvalue : store.value? node = some known) :
    Decides program store memo envs (.demand demand) [node] [] node
      (value program matchOne node demand known ⟨{ store with envs }, memo⟩) := by
  have hproper := hreads.proper
  obtain ⟨next, hdemand⟩ | ⟨next, haccepts⟩ | ⟨cases, tag, args, next, hdemand, rfl, hcase⟩ |
    hrejects := Demand.view (program.demand demand) known hbind
  · rw [hdemand] at hproper
    exact hproper.elim
  · obtain ⟨test, hpasses, hmeets⟩ := passes_of_accepts haccepts hvalue
    have hwalk : walk? program store [test] [node] = some ([], []) :=
      walk?_cons.2 ⟨[], [], [], hmeets, rfl, rfl⟩
    have hentries : envs.entries (Outcome.plain node next).env = [] ++ [] := henvs.entries_empty
    rw [value_of_accepts haccepts]
    exact .ok (.refl envs) henvs henvs.contains_empty rfl (.cons hpasses .nil) hwalk hentries rfl
  · have hlisted := Environments.mem_of_lookup hcase
    obtain ⟨⟨name, hname⟩, -⟩ := (hdemand ▸ hproper).2.2 _ hlisted
    have hpasses : program.Passes (program.demand demand) (.constructor name) next :=
      hdemand ▸ .constructor hname hcase
    have hmeets : meets? program store (.constructor name) node = some ([], args) := by
      simp [meets?, hvalue, hname]
    have hwalk : walk? program store [.constructor name] [node] = some ([], args) :=
      walk?_cons.2 ⟨[], args, [], hmeets, by rw [List.append_nil]; rfl, rfl⟩
    have hrest : program.Reads arities (args.length + count) next := by
      rw [(hpasses.parts_of_meets hproper hcomplete hmeets).1]
      exact hreads.after hpasses
    have hearlier : ∀ demand, next = .demand demand → demand.index < steps := by
      rintro later rfl
      have hlater := hinterned.earlier hreads.exists_layer hpasses.mem_nexts
      omega
    have hargs : Decides program store memo envs next args (envs.entries .empty) node
        (arguments program args.length matchOne (.plain node next) args ⟨{ store with envs }, memo⟩) :=
      arguments_decides hinterned hone args.length (.plain node next) henvs henvs.contains_empty
        (hcomplete.args hvalue) hrest hearlier
    rw [henvs.entries_empty] at hargs
    rw [value_of_case hdemand hcase]
    have hnothing : Spells program [] [].reverse := rfl
    exact hargs.prepend hinterned.symbols (.refl envs) (.cons hpasses .nil) hwalk hnothing
  · rw [value_of_rejects hrejects]
    refine .refused fun tests body more hroutes ↦ ?_
    cases hroutes with
    | cons hpasses _ => simp [walk?, meets?_of_rejects hrejects hvalue hpasses]

/-- A bound on the descent that exceeds the number of the demand is enough. -/
theorem within_decides (hinterned : program.Interned) (evaluate : Evaluator) (steps : Nat) :
    DecidesBelow program store memo arities steps (within program evaluate steps) := by
  induction steps with
  | zero => exact fun _ _ _ hindex ↦ absurd hindex (Nat.not_lt_zero _)
  | succ steps ih =>
    intro envs node demand count henvs hcomplete hreads hindex
    cases hbind : (program.demand demand).isBind with
    | true =>
      obtain ⟨name, next, hdemand⟩ := Demand.eq_bind hbind
      have hproper := hreads.proper
      rw [hdemand] at hproper
      rw [within_bind evaluate steps hdemand]
      exact bind_decides henvs hdemand hproper
    | false =>
      obtain ⟨value, hvalue, -⟩ := hcomplete.exists_value
      have hknown : (Machine.mk { store with envs } memo).store.value? node = some value := hvalue
      have hmatch : within program evaluate (steps + 1) node demand ⟨{ store with envs }, memo⟩ =
          Matching.value program (within program evaluate steps) node demand value
            ⟨{ store with envs }, memo⟩ := within_of_value evaluate steps hbind hknown
      rw [hmatch]
      exact value_decides hinterned ih henvs hcomplete hreads hindex hbind hvalue

/-- Matching a complete node against a demand made from clauses decides. -/
theorem node_decides (hinterned : program.Interned) (reach : Nat) (evaluate : Evaluator)
    {machine : Machine} (henvs : machine.store.envs.Canonical)
    (hcomplete : machine.store.Complete arities node)
    (hreads : program.Reads arities (count + 1) (.demand demand)) :
    Decides program machine.store machine.memo machine.store.envs (.demand demand) [node] [] node
      (Matching.node program reach evaluate node demand machine) := by
  have hmade := (Array.getElem?_eq_some_iff.1 hreads.exists_layer).1
  exact within_decides hinterned evaluate _ henvs hcomplete hreads (by omega)

end Matching

end Whence
