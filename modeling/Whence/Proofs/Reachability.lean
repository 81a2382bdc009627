import Whence.Proofs.Histories
import Whence.Proofs.Steps

/-!
# Runs of operations

A store is reached from the empty one by operations, each of which may succeed or fail.  Opening a
revision and going back to one leave the nodes as they are; all other operations, whole evaluations
among them, leave the revisions as they are.
-/

namespace Whence

namespace Revisions

variable {revisions : Revisions} {revision parent earlier later other : Revision}

/-- Every revision heads its lineage and is younger than the rest of it. -/
structure Tree (revisions : Revisions) : Prop where
  current : revisions.contains revisions.current = true
  lineage : ∀ {revision}, revisions.contains revision = true → ∃ ancestors,
    revisions.lineage revision = revision :: ancestors ∧
      ∀ ancestor ∈ ancestors, ancestor.index < revision.index

theorem contains_current (revisions : Revisions) : revisions.contains revisions.current = true :=
  decide_eq_true revisions.current_lt

theorem contains_of_lt (hrevision : revisions.contains revision = true)
    (hlt : other.index < revision.index) : revisions.contains other = true :=
  decide_eq_true (Nat.lt_trans hlt (of_decide_eq_true hrevision))

theorem lineage_of_parent (hparent : revisions.parent? revision = some parent) :
    revisions.lineage revision = revision :: revisions.lineage parent := by
  rw [lineage]
  split
  case h_1 _ heq => rw [Option.some.inj (hparent.symm.trans heq)]
  case h_2 heq => cases hparent.symm.trans heq

theorem lineage_of_parentless (hparent : revisions.parent? revision = none) :
    revisions.lineage revision = [revision] := by
  rw [lineage]
  split
  case h_1 heq => cases hparent.symm.trans heq
  case h_2 => rfl

/-- The way along the parents leads to ever older revisions. -/
theorem exists_ancestors (revisions : Revisions) (revision : Revision) : ∃ ancestors,
    revisions.lineage revision = revision :: ancestors ∧
      ∀ ancestor ∈ ancestors, ancestor.index < revision.index := by
  induction revision using lineage.induct revisions with
  | case1 revision ih =>
    cases hparent : revisions.parent? revision with
    | none => exact ⟨[], lineage_of_parentless hparent, List.forall_mem_nil _⟩
    | some parent =>
      have hlt := parent?_lt hparent
      obtain ⟨ancestors, hlineage, hancestors⟩ := ih parent hparent
      refine ⟨parent :: ancestors, (lineage_of_parent hparent).trans (hlineage ▸ rfl), ?_⟩
      exact List.forall_mem_cons.2
        ⟨hlt, fun ancestor hancestor ↦ Nat.lt_trans (hancestors ancestor hancestor) hlt⟩

theorem tree (revisions : Revisions) : revisions.Tree :=
  ⟨revisions.contains_current, fun {revision} _ ↦ revisions.exists_ancestors revision⟩

/-- A revision precedes no older one. -/
theorem not_precedes_of_lt (hlt : later.index < earlier.index) :
    revisions.precedes earlier later = false := by
  obtain ⟨ancestors, hlineage, hancestors⟩ := revisions.exists_ancestors later
  rw [Bool.eq_false_iff, precedes, hlineage, ne_eq, List.contains_iff_mem]
  intro hmem
  obtain rfl | hmem := List.mem_cons.1 hmem
  · exact Nat.lt_irrefl _ hlt
  · exact Nat.lt_asymm hlt (hancestors earlier hmem)

theorem parent?_spawn (hrevision : revisions.contains revision = true) :
    revisions.spawn.2.parent? revision = revisions.parent? revision := by
  have hlt : revision.index < revisions.parents.size := of_decide_eq_true hrevision
  simp only [parent?, spawn, Array.getElem?_push, if_neg (Nat.ne_of_lt hlt)]

/-- A revision is opened on the one that was current. -/
theorem parent?_spawn_current (revisions : Revisions) :
    revisions.spawn.2.parent? revisions.spawn.2.current = some revisions.current := by
  simp [parent?, spawn]

theorem lineage_spawn (hrevision : revisions.contains revision = true) :
    revisions.spawn.2.lineage revision = revisions.lineage revision := by
  induction revision using lineage.induct revisions with
  | case1 revision ih =>
    have hspawn := parent?_spawn hrevision
    cases hparent : revisions.parent? revision with
    | none => rw [lineage_of_parentless hparent, lineage_of_parentless (hspawn.trans hparent)]
    | some parent =>
      rw [lineage_of_parent hparent, lineage_of_parent (hspawn.trans hparent),
        ih parent hparent (contains_of_lt hrevision (parent?_lt hparent))]

theorem contains_spawn (hrevision : revisions.contains revision = true) :
    revisions.spawn.2.contains revision = true := by
  have hlt : revision.index < revisions.parents.size := of_decide_eq_true hrevision
  simp only [contains, spawn, Array.size_push, decide_eq_true_eq]
  omega

theorem lineage_spawn_current (revisions : Revisions) :
    revisions.spawn.2.lineage revisions.spawn.2.current =
      revisions.spawn.2.current :: revisions.lineage revisions.current := by
  rw [lineage_of_parent revisions.parent?_spawn_current, lineage_spawn revisions.contains_current]

/-- A revision that is opened is new. -/
theorem contains_spawn_current (revisions : Revisions) :
    revisions.contains revisions.spawn.2.current = false := by
  simp [contains, spawn]

theorem checkout?_eq_some {final : Revisions} (hcheckout : revisions.checkout? revision = some final) :
    ∃ hrevision, final = { revisions with current := revision, current_lt := hrevision } := by
  unfold checkout? at hcheckout
  split at hcheckout
  case isTrue hrevision => exact ⟨hrevision, (Option.some.inj hcheckout).symm⟩
  case isFalse => cases hcheckout

end Revisions

/-- An operation on a store.  An evaluation may come with outcomes remembered from earlier ones. -/
inductive Operation where
  | register (address : Address)
  | write (address : Address) (knowledge : Knowledge)
  | input (value : Value)
  | update (node : NodeId) (value : Value)
  | primitive (primitive : Primitive)
  | extend (env : EnvId) (name : Symbol) (binding : Binding)
  | spawn
  | checkout (revision : Revision)
  | openLibrary (program : Program)
  | evaluate (program : Program) (settings : Settings) (memo : Memo) (env : EnvId) (expr : ExprId)
      (demand : DemandId)

/-- The store after an operation that has succeeded or failed. -/
def Operation.run (store : Store) : Operation → Store
  | .register address => (store.register address).2
  | .write address knowledge => stateAfter (Store.write address knowledge) store
  | .input value => stateAfter (Store.input value) store
  | .update node value => stateAfter (Store.update node value) store
  | .primitive item => stateAfter (Store.primitive item) store
  | .extend env name binding => (store.extend env name binding).2
  | .spawn => store.spawn.2
  | .checkout revision => stateAfter (Store.checkout revision) store
  | .openLibrary program => (stateAfter (Evaluation.openLibrary program) { store }).store
  | .evaluate program settings memo env expr demand =>
    (stateAfter (Evaluation.under program settings env expr demand) ⟨store, memo⟩).store

namespace Store

variable {store final : Store} {node : NodeId} {address : Address} {knowledge : Knowledge}

/-- The store after a run. -/
def after (store : Store) (operations : List Operation) : Store :=
  operations.foldl Operation.run store

/-- What an operation can do to a store. -/
inductive Move (store : Store) : Store → Prop
  | steps {final : Store} : store.Steps final → Move store final
  | spawn : Move store store.spawn.2
  | checkout {revision : Revision} {revisions : Revisions} :
    store.revisions.checkout? revision = some revisions → Move store { store with revisions }

theorem run_move (store : Store) (operation : Operation) : store.Move (operation.run store) := by
  cases operation with
  | register address => exact .steps (.single (.register store address))
  | write address knowledge => exact .steps (.write address knowledge store)
  | input value => exact .steps (.input value store)
  | update node value => exact .steps (.update node value store)
  | primitive primitive => exact .steps (.primitive primitive store)
  | extend env name binding => exact .steps (.single (.extend store env name binding))
  | spawn => exact .spawn
  | checkout revision =>
    rw [Operation.run, stateAfter, checkout_eq]
    cases hcheckout : store.revisions.checkout? revision with
    | some revisions => exact .checkout hcheckout
    | none => exact .steps .refl
  | openLibrary program => exact .steps (Stepwise.openLibrary program ⟨store, {}⟩)
  | evaluate program settings memo env expr demand =>
    exact .steps (Stepwise.nested program settings settings.maxDepth env expr demand ⟨store, memo⟩)

theorem Step.revisions_eq (hstep : Step store final) : final.revisions = store.revisions := by
  cases hstep with
  | register address =>
    unfold Store.register
    split <;> rfl
  | commit _ => rfl
  | extend env name binding => rfl
  | note primitive node => rfl

theorem Steps.revisions_eq (hsteps : Steps store final) : final.revisions = store.revisions := by
  induction hsteps with
  | refl => rfl
  | tail _ hstep ih => exact hstep.revisions_eq.trans ih

/-- Registering an address leaves the history of every node as it is. -/
theorem history_register (store : Store) (address : Address) (node : NodeId) :
    ((store.register address).2.node node).history = (store.node node).history := by
  cases hlookup : store.lookup? address with
  | some id => rw [register_of_lookup hlookup]
  | none =>
    rw [register_of_none hlookup, node_allot]
    split
    case isTrue hindex =>
      rw [node_eq_default (by simp [Contains, hindex])]
      rfl
    case isFalse => rfl

/-- A node that does not exist keeps no history. -/
theorem setHistory_of_not_contains (hnode : ¬store.Contains node) (history : History) :
    store.setHistory node history = store := by
  have hnodes : (store.setHistory node history).nodes = store.nodes := by
    apply Array.ext_getElem?
    intro index
    rw [setHistory, Array.getElem?_modify]
    split
    case isTrue heq =>
      subst heq
      rw [Array.getElem?_eq_none (Nat.le_of_not_lt hnode), Option.map_none]
    case isFalse => rfl
  calc store.setHistory node history
    _ = { store with nodes := (store.setHistory node history).nodes } := rfl
    _ = store := by rw [hnodes]

/-- A write changes the history of its node only. -/
theorem history_setHistory (store : Store) (node other : NodeId) (history : History) :
    ((store.setHistory node history).node other).history = (store.node other).history ∨
      node = other ∧ ((store.setHistory node history).node other).history = history := by
  by_cases hnode : store.Contains node
  · rw [node_setHistory hnode]
    split
    case isTrue heq => exact .inr ⟨heq, rfl⟩
    case isFalse => exact .inl rfl
  · rw [setHistory_of_not_contains hnode]
    exact .inl rfl

/-- What a step does to the history of a node: nothing, or a write of the current revision. -/
theorem Step.history (hstep : Step store final) (node : NodeId) :
    (final.node node).history = (store.node node).history ∨ ∃ knowledge,
      History.Commits (store.node node).history (store.revisions.lineage store.current)
        store.current knowledge (final.node node).history := by
  cases hstep with
  | register address => exact .inl (history_register store address node)
  | @commit written knowledge history hrevised =>
    obtain hsame | ⟨rfl, hhistory⟩ := history_setHistory store written node history
    · exact .inl hsame
    · rw [hhistory]
      exact .inr ⟨knowledge, History.commit_spec hrevised⟩
  | extend env name binding => exact .inl rfl
  | note primitive node => exact .inl rfl

/-- An accepted write sets the history of its node to what a write of the current revision makes of
it. -/
theorem write_ok (hwrite : write address knowledge store = .ok node final) :
    node = (store.register address).1 ∧ ∃ history,
      final = (store.register address).2.setHistory node history ∧
      History.Commits (store.node node).history (store.revisions.lineage store.current)
        store.current knowledge history := by
  have hrevisions := (Step.register store address).revisions_eq
  rw [write_eq] at hwrite
  cases hrevised : (store.register address).2.revised (store.register address).1 knowledge with
  | error conflict =>
    rw [hrevised] at hwrite
    cases hwrite
  | ok history =>
    rw [hrevised] at hwrite
    cases hwrite
    rw [revised, history_register, Store.current, hrevisions] at hrevised
    exact ⟨rfl, history, rfl, History.commit_spec hrevised⟩

theorem write_revisions (hwrite : write address knowledge store = .ok node final) :
    final.revisions = store.revisions := by
  obtain ⟨-, history, rfl, -⟩ := write_ok hwrite
  exact (Step.register store address).revisions_eq

/-! ## Reachable stores -/

def Reachable (store : Store) : Prop := ∃ operations, Store.empty.after operations = store

/-- What has been registered exists. -/
structure Intact (store : Store) : Prop where
  ids : ∀ {address node}, store.lookup? address = some node → store.Contains node

theorem Intact.contains_register (hintact : store.Intact) (address : Address) :
    (store.register address).2.Contains (store.register address).1 := by
  cases hlookup : store.lookup? address with
  | some node =>
    rw [register_of_lookup hlookup]
    exact hintact.ids hlookup
  | none =>
    rw [register_of_none hlookup, Contains, size_allot]
    exact Nat.lt_succ_self _

theorem exists_lineage_current (store : Store) :
    ∃ ancestors, store.revisions.lineage store.current = store.current :: ancestors := by
  obtain ⟨ancestors, hlineage, -⟩ := store.revisions.exists_ancestors store.current
  exact ⟨ancestors, hlineage⟩

/-- In a store that is intact an accepted write takes effect at its node. -/
theorem Intact.write_commits (hintact : store.Intact)
    (hwrite : write address knowledge store = .ok node final) :
    History.Commits (store.node node).history (store.revisions.lineage store.current)
      store.current knowledge (final.node node).history := by
  obtain ⟨rfl, history, rfl, hcommits⟩ := write_ok hwrite
  rw [node_setHistory (hintact.contains_register address), if_pos rfl]
  exact hcommits

theorem Step.intact (hstep : Step store final) (hintact : store.Intact) : final.Intact := by
  refine ⟨fun {address node} hlookup ↦ ?_⟩
  cases hstep with
  | register address' =>
    cases hregistered : store.lookup? address' with
    | some registered =>
      rw [register_of_lookup hregistered] at hlookup ⊢
      exact hintact.ids hlookup
    | none =>
      rw [register_of_none hregistered] at hlookup ⊢
      rw [lookup?_allot] at hlookup
      rw [Contains, size_allot]
      split at hlookup
      case isTrue =>
        cases hlookup
        exact Nat.lt_succ_self _
      case isFalse => exact Nat.lt_succ_of_lt (hintact.ids hlookup)
  | @commit written knowledge history hrevised =>
    have hsize : (store.setHistory written history).size = store.size := by simp [setHistory, size]
    rw [Contains, hsize]
    exact hintact.ids hlookup
  | extend env name binding => exact hintact.ids hlookup
  | note primitive id => exact hintact.ids hlookup

theorem Move.intact (hmove : store.Move final) (hintact : store.Intact) : final.Intact := by
  cases hmove with
  | steps hsteps =>
    induction hsteps with
    | refl => exact hintact
    | tail _ hstep ih => exact hstep.intact ih
  | spawn => exact ⟨hintact.ids⟩
  | checkout hcheckout => exact ⟨hintact.ids⟩

theorem Reachable.intact (hreachable : store.Reachable) : store.Intact := by
  obtain ⟨operations, rfl⟩ := hreachable
  have hempty : Store.empty.Intact := ⟨fun hlookup ↦ by simp [lookup?, empty] at hlookup⟩
  rw [after]
  generalize Store.empty = store at hempty
  induction operations generalizing store with
  | nil => exact hempty
  | cons operation operations ih => exact ih _ ((store.run_move operation).intact hempty)

/-- The store in which one node is registered, for the first input. -/
def oneInput (revisions : Revisions) (history : History) : Store where
  nodes := #[{ address := .input ⟨0⟩, history }]
  ids := (∅ : Std.HashMap Address NodeId).insert (.input ⟨0⟩) ⟨0⟩
  revisions := revisions

theorem write_oneInput (revisions : Revisions) {history later : History}
    (hcommit : history.commit (revisions.lineage revisions.current) revisions.current knowledge =
      .ok later) :
    write (.input ⟨0⟩) knowledge (oneInput revisions history) =
      .ok ⟨0⟩ (oneInput revisions later) := by
  have hlookup : (oneInput revisions history).lookup? (.input ⟨0⟩) = some ⟨0⟩ := by
    simp [lookup?, oneInput]
  have hrevised : (oneInput revisions history).revised ⟨0⟩ knowledge = .ok later := hcommit
  rw [write_eq, register_of_lookup hlookup]
  simp only [hrevised]
  rfl

theorem run_update_oneInput (revisions : Revisions) {history later : History} {value : Value}
    (hcommit : history.commit (revisions.lineage revisions.current) revisions.current
      (.of .given value) = .ok later) :
    Operation.run (oneInput revisions history) (.update ⟨0⟩ value) = oneInput revisions later := by
  have hwrite : write ((oneInput revisions history).address ⟨0⟩) (.of .given value)
      (oneInput revisions history) = .ok ⟨0⟩ (oneInput revisions later) :=
    write_oneInput revisions hcommit
  rw [Operation.run, stateAfter, update_eq, hwrite]

theorem run_input_empty (value : Value) :
    Operation.run empty (.input value) = oneInput {} ⟨[(.root, .of .given value)], []⟩ := by
  have hlookup : empty.lookup? (.input ⟨0⟩) = none := by simp [lookup?, empty]
  have hfresh : empty.fresh = (⟨0⟩, oneInput {} {}) := register_of_none hlookup
  have hwrite : write ((oneInput {} {}).address ⟨0⟩) (.of .given value) (oneInput {} {}) =
      .ok ⟨0⟩ (oneInput {} ⟨[(.root, .of .given value)], []⟩) := write_oneInput {} rfl
  rw [Operation.run, stateAfter, input_eq, hfresh, hwrite]

end Store

end Whence
