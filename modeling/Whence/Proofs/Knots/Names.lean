import Whence.Proofs.Knots.Rules

/-!
# The names of a recursive group

In the environment of a group that has been closed, and wherever a name of the group is not bound
anew, the name leads to the node of its last definition, and other names lead where they lead around
the group.  Looking a name up closes the definition again, which finds the node and changes nothing.
-/

namespace Whence

open Machine

variable {program : Program} {store final : Store} {machine : Machine}
  {node : NodeId} {scope : Scope} {closed inner : EnvId} {members : List Member}
  {entries : List GroupEntry} {name : Symbol}

/-- The closure of the last definition with the name. -/
def Member.last? (members : List Member) (name : Symbol) : Option NodeId :=
  (members.reverse.find? fun member ↦ member.name = name).map Member.closure

theorem Member.last?_cons (first : Member) (rest : List Member) (name : Symbol) :
    last? (first :: rest) name =
      (last? rest name).or (if first.name = name then some first.closure else none) := by
  simp only [last?, List.reverse_cons, List.find?_append, Option.map_or]
  by_cases hfirst : first.name = name <;> simp [hfirst]

/-- The inner environment extends the outer one and does not bind the name anew. -/
def Environments.Extends (envs : Environments) (inner outer : EnvId) (name : Symbol) : Prop :=
  ∃ front, envs.entries inner = front ++ envs.entries outer ∧ ∀ entry ∈ front, entry.1 ≠ name

theorem Environments.Extends.get?_eq {envs : Environments} {outer : EnvId}
    (hextends : envs.Extends inner outer name) : envs.get? inner name = envs.get? outer name := by
  obtain ⟨front, hentries, hfront⟩ := hextends
  have hnone : front.lookup name = none :=
    List.lookup_eq_none_iff.2 fun entry hentry ↦ by simpa using (hfront entry hentry).symm
  rw [get?_eq_lookup, get?_eq_lookup, hentries, List.lookup_append, hnone, Option.none_or]

/-- The innermost binding of a name of the group is the one of its last definition. -/
theorem HoldsClosures.lookup_last (hholds : HoldsClosures store scope closed entries members)
    (offset : Nat) (name : Symbol) :
    let bindings := (entries.zipIdx offset).map fun (entry, position) ↦
      (entry.name, Binding.recursive scope position)
    (Member.last? members name = none ∧ bindings.reverse.lookup name = none) ∨
      ∃ node position entry, Member.last? members name = some node ∧
        bindings.reverse.lookup name = some (.recursive scope (offset + position)) ∧
        entries[position]? = some entry ∧ HoldsClosure store scope closed entry.function node := by
  induction hholds generalizing offset with
  | nil => exact .inl ⟨rfl, rfl⟩
  | @cons entry entries node members hfirst _ ih =>
    simp only [List.zipIdx_cons, List.map_cons, List.reverse_cons, List.lookup_append,
      Member.last?_cons]
    obtain ⟨hlast, hlookup⟩ | ⟨last, position, found, hlast, hlookup, hentry, hholds⟩ :=
      ih (offset + 1)
    · rw [hlast, hlookup, Option.none_or, Option.none_or]
      by_cases hname : entry.name = name
      · refine .inr ⟨node, 0, entry, if_pos hname, ?_, rfl, hfirst⟩
        rw [hname, List.lookup_cons_self]
        rfl
      · refine .inl ⟨if_neg hname, ?_⟩
        rw [List.lookup_cons, beq_eq_false_iff_ne.2 (Ne.symm hname), List.lookup_nil]
    · refine .inr ⟨last, position + 1, found, ?_, ?_, hentry, hholds⟩
      · rw [hlast, Option.some_or]
      · rw [hlookup, Option.some_or, Nat.add_assoc, Nat.add_comm 1]

section Extension

variable (hmembers : Members program store scope closed members)
  (hextends : store.envs.Extends inner closed name)
include hmembers hextends

theorem Members.get?_eq : store.envs.get? inner name =
    ((program.recursiveBindings scope).reverse.lookup name).or (store.envs.get? scope.env name) := by
  rw [hextends.get?_eq, Environments.get?_eq_lookup, Environments.get?_eq_lookup,
    hmembers.1.entries, List.lookup_append]

/-- In an extension of its environment, a name of the group is bound to its last definition. -/
theorem Members.get?_last (hlast : Member.last? members name = some node) :
    ∃ position entry, store.envs.get? inner name = some (.recursive scope position) ∧
      (program.group scope.group).entries[position]? = some entry ∧
      HoldsClosure store scope closed entry.function node := by
  obtain ⟨hnone, -⟩ | ⟨found, position, entry, hfound, hlookup, hentry, hholds⟩ :=
    hmembers.2.lookup_last 0 name
  · rw [hlast] at hnone
    cases hnone
  · rw [hlast] at hfound
    cases hfound
    refine ⟨position, entry, ?_, hentry, hholds⟩
    rw [hmembers.get?_eq hextends, Program.recursiveBindings, hlookup, Option.some_or, Nat.zero_add]

/-- Each other name is bound as around the group. -/
theorem Members.get?_other (hlast : Member.last? members name = none) :
    store.envs.get? inner name = store.envs.get? scope.env name := by
  obtain ⟨-, hlookup⟩ | ⟨found, _, _, hfound, -⟩ := hmembers.2.lookup_last 0 name
  · rw [hmembers.get?_eq hextends, Program.recursiveBindings, hlookup, Option.none_or]
  · rw [hlast] at hfound
    cases hfound

end Extension

/-! ## Tied knots -/

/-- The knot of the group is tied: closing the group or one of its definitions once more gives the
same nodes and leaves the machine as it is.  A name goes to the node of its last definition, and gets
the value of that node if nothing is known about the name yet; if that is known, going there once more
leaves the machine as it is, too.  Other names go where they go around the group. -/
structure Machine.Ties (program : Program) (scope : Scope) (closed : EnvId) (members : List Member)
    (machine : Machine) : Prop where
  holds : Members program machine.store scope closed members
  closeGroup : Rules.closeGroup program scope machine = .ok closed machine
  closeMembers : Rules.closeMembers program scope machine = .ok members machine
  closeEntry : ∀ {position : Nat} {entry member},
    (program.group scope.group).entries[position]? = some entry →
    members[position]? = some member →
    Rules.closeEntry program scope entry machine = .ok member.closure machine
  lookup : ∀ {inner name node}, machine.store.envs.Extends inner closed name →
    Member.last? members name = some node → ∀ reach evaluate address demand,
      Rules.lookup program reach evaluate inner address name demand machine = (do
        let outcome ← Matching.node program reach evaluate node demand
        Rules.explain address (.lookup name node) node outcome) machine
  evaluated : ∀ {inner name node address demand next},
    machine.store.envs.Extends inner closed name → Member.last? members name = some node →
    (∀ known, machine.store.lookup? address = some known →
      machine.store.knowledge? known = none) →
    program.demand demand = .everything next ∨ program.demand demand = .function next →
    ∀ reach evaluate, ∃ outcome final,
      Rules.lookup program reach evaluate inner address name demand machine = .ok outcome final ∧
        final.store.lookup? address = some outcome.node ∧
        final.store.explanation? outcome.node = some (.lookup name node) ∧
        final.store.value? outcome.node = machine.store.value? node
  again : ∀ {inner name node address known demand next},
    machine.store.envs.Extends inner closed name → Member.last? members name = some node →
    machine.store.lookup? address = some known →
    machine.store.explanation? known = some (.lookup name node) →
    machine.store.value? known = machine.store.value? node →
    program.demand demand = .everything next ∨ program.demand demand = .function next →
    ∀ reach evaluate, Rules.lookup program reach evaluate inner address name demand machine =
      .ok (.plain known next) machine
  others : ∀ {inner name}, machine.store.envs.Extends inner closed name →
    Member.last? members name = none →
      machine.store.envs.get? inner name = machine.store.envs.get? scope.env name

theorem HoldsClosures.getElem? (hholds : HoldsClosures store scope closed entries members)
    {position : Nat} {entry : GroupEntry} {member : Member}
    (hentry : entries[position]? = some entry) (hmember : members[position]? = some member) :
    HoldsClosure store scope closed entry.function member.closure := by
  induction hholds generalizing position with
  | nil => cases hentry
  | cons hfirst _ ih =>
    cases position with
    | zero =>
      cases hentry
      cases hmember
      exact hfirst
    | succ position => exact ih hentry hmember

/-- The closure of a definition is matched by every demand on functions, and stays as it is. -/
theorem HoldsClosure.node_eq {function : ExprId} {demand : DemandId} {next : Next}
    (hholds : HoldsClosure machine.store scope closed function node)
    (hdemand : program.demand demand = .everything next ∨ program.demand demand = .function next)
    (reach : Nat) (evaluate : Evaluator) :
    Matching.node program reach evaluate node demand machine =
      .ok (.plain node next) machine := by
  have hvalue := Store.value?_of_knowledge hholds.knowledge
  have hbind : (program.demand demand).isBind = false := by
    obtain hdemand | hdemand := hdemand <;> rw [hdemand] <;> rfl
  obtain ⟨steps, hmatch⟩ := Matching.node_of_value reach evaluate hbind hvalue
  rw [hmatch]
  obtain hdemand | hdemand := hdemand
  · rw [Matching.value_of_everything hdemand]
    rfl
  · rw [Matching.value_of_accepts (by rw [hdemand]; rfl)]
    rfl

/-- Where nothing is known yet, the closure is recorded together with its explanation. -/
theorem HoldsClosure.explain_eq {function : ExprId} {address : Address}
    (hholds : HoldsClosure machine.store scope closed function node)
    (hcurrent : machine.store.Current)
    (hunknown : ∀ known, machine.store.lookup? address = some known →
      machine.store.knowledge? known = none) (explanation : Explanation) (outcome : Outcome) :
    ∃ named final,
      Rules.explain address explanation node outcome machine = .ok { outcome with node := named } final ∧
        final.store.lookup? address = some named ∧
        final.store.explanation? named = some explanation ∧
        final.store.value? named = machine.store.value? node := by
  have hvalue := Store.value?_of_knowledge hholds.knowledge
  obtain ⟨named, store, hwrite, -, hlookup, hknown, -⟩ := hcurrent.write_unknown
    (Knowledge.isBlank_of explanation (.closure ⟨closed, function, some scope⟩)) hunknown
  refine ⟨named, { machine with store }, ?_, hlookup, ?_, ?_⟩
  · rw [Rules.explain, run_bind, run_inspect, hvalue]
    change (Machine.perform (Store.write address (.of explanation
      (.closure ⟨closed, function, some scope⟩))) >>= _) machine = _
    rw [run_bind, Machine.perform_ok hwrite]
    rfl
  · rw [Store.explanation?, hknown]
    rfl
  · rw [hvalue]
    exact Store.value?_of_knowledge hknown

/-- Where the closure has been recorded with this explanation, it is found. -/
theorem HoldsClosure.explain_again {function : ExprId} {address : Address} {known : NodeId}
    {explanation : Explanation} (hholds : HoldsClosure machine.store scope closed function node)
    (hcurrent : machine.store.Current) (hlookup : machine.store.lookup? address = some known)
    (hexplanation : machine.store.explanation? known = some explanation)
    (hvalue : machine.store.value? known = machine.store.value? node) (outcome : Outcome) :
    Rules.explain address explanation node outcome machine =
      .ok { outcome with node := known } machine := by
  let closure : Value := .closure ⟨closed, function, some scope⟩
  have hclosure : machine.store.value? node = some closure :=
    Store.value?_of_knowledge hholds.knowledge
  have hknowledge : machine.store.knowledge? known = some (.of explanation closure) := by
    rw [hclosure, Store.value?_eq] at hvalue
    rw [Store.explanation?] at hexplanation
    obtain ⟨⟨_, _⟩, hknown, rfl⟩ := Option.bind_eq_some_iff.1 hexplanation
    rw [hknown] at hvalue ⊢
    cases hvalue
    rfl
  have hhistory := hcurrent.history known
  rw [hknowledge] at hhistory
  have hwrite := Store.write_of_history hcurrent.revisions hlookup hknowledge hhistory
    (Knowledge.isBlank_of explanation closure) (merge_self _)
  rw [Rules.explain, run_bind, run_inspect, hclosure]
  change (Machine.perform (Store.write address (.of explanation closure)) >>= _) machine = _
  rw [run_bind, Machine.perform_ok hwrite]
  rfl

/-- Looking a name of the group up goes to the node of its last definition. -/
theorem Closed.lookup_eq (hclosed : Closed program machine.store scope closed members)
    (hextends : machine.store.envs.Extends inner closed name)
    (hlast : Member.last? members name = some node) (reach : Nat) (evaluate : Evaluator)
    (address : Address) (demand : DemandId) :
    Rules.lookup program reach evaluate inner address name demand machine = (do
      let outcome ← Matching.node program reach evaluate node demand
      Rules.explain address (.lookup name node) node outcome) machine := by
  obtain ⟨position, entry, hbinding, hentry, hholds⟩ := hclosed.members.get?_last hextends hlast
  rw [Rules.lookup, run_bind, run_inspect, hbinding]
  dsimp only
  rw [run_bind, hclosed.resolve_eq name hentry hholds]

theorem Closed.ties (hclosed : Closed program machine.store scope closed members) :
    machine.Ties program scope closed members where
  holds := hclosed.members
  closeGroup := hclosed.found.closeGroup_eq
  closeMembers := hclosed.closeMembers_eq
  closeEntry hentry hmember :=
    (hclosed.members.2.getElem? hentry hmember).closeEntry_eq hclosed.current hclosed.found
  lookup := hclosed.lookup_eq
  evaluated {inner name node address demand next} hextends hlast hunknown hdemand reach evaluate := by
    obtain ⟨_, entry, -, -, hholds⟩ := hclosed.members.get?_last hextends hlast
    obtain ⟨named, final, hexplain, hnamed⟩ := hholds.explain_eq hclosed.current hunknown
      (.lookup name node) (.plain node next)
    refine ⟨{ Outcome.plain node next with node := named }, final, ?_, hnamed⟩
    rw [hclosed.lookup_eq hextends hlast, run_bind, hholds.node_eq hdemand]
    exact hexplain
  again {inner name node address known demand next} hextends hlast hlookup hexplanation hvalue hdemand
      reach evaluate := by
    obtain ⟨_, entry, -, -, hholds⟩ := hclosed.members.get?_last hextends hlast
    rw [hclosed.lookup_eq hextends hlast, run_bind, hholds.node_eq hdemand]
    exact hholds.explain_again hclosed.current hlookup hexplanation hvalue (.plain node next)
  others := hclosed.members.get?_other

/-- Each evaluation of the name in the environment that succeeds is explained by the node. -/
def Machine.LeadsTo (program : Program) (machine : Machine) (env : EnvId) (name : Symbol)
    (node : NodeId) : Prop :=
  ∀ settings expr demand outcome final, (program.expr expr).name? = some name →
    (program.demand demand).isBind = false →
    Evaluation.under program settings env expr demand machine = .ok outcome final →
      final.store.lookup? (.evaluation env expr) = some outcome.node ∧
        final.store.explanation? outcome.node = some (.lookup name node)

/-- Once the group has been closed, its names lead to their last definitions, whatever is
remembered. -/
theorem Members.leadsTo (hmembers : Members program machine.store scope closed members)
    (hknotted : machine.Knotted program) (hextends : machine.store.envs.Extends inner closed name)
    (hlast : Member.last? members name = some node) : machine.LeadsTo program inner name node := by
  intro settings expr demand outcome final hname hbind hrun
  obtain ⟨position, entry, hbinding, hentry, hholds⟩ := hmembers.get?_last hextends hlast
  have hinner := Environments.contains_of_mem (Environments.mem_of_get? hbinding)
  obtain ⟨hadvances, htraced⟩ := Stops.ok
    (Evaluation.keepsKnots_nested program settings settings.maxDepth hknotted hinner expr demand) hrun
  obtain ⟨hlookup, binding, target, hbinding', hresolves, hexplanation⟩ := htraced hbind name hname
  have hsteps := hadvances.steps
  refine ⟨hlookup, ?_⟩
  rw [hsteps.includes.envs.get?_eq hinner, hbinding] at hbinding'
  cases hbinding'
  have hcloses := hmembers.1.steps hsteps
  have hcurrent := hknotted.store.coherent.toCurrent
  have htarget : target = node := by
    cases hresolves with
    | recursive hentry' hcloses' hholds' =>
      rw [hentry] at hentry'
      cases hentry'
      cases hcloses'.unique hadvances.knotted.store.coherent.envs hcloses
      have hlookup' := (hholds.steps hcurrent hsteps).lookup
      rw [hholds'.lookup] at hlookup'
      exact Option.some.inj hlookup'
  rw [hexplanation, htarget]

end Whence
