import Whence.Proofs.Reachability
import Whence.Proofs.WritePairs

/-!
# The order of writes to an address

Two writes to one address at one revision are what two writes make of the history of the node, so
their order matters for whether they are accepted in one situation only, and never for what is seen
of the node after both.
-/

namespace Whence

namespace Store

variable {store final : Store} {node : NodeId} {address : Address}
  {knowledge first second : Knowledge}

/-- Two writes to one address, one after the other. -/
def writeBoth (address : Address) (first second : Knowledge) : Storing NodeId := do
  let _ ← write address first
  write address second

def Accepts (store : Store) (address : Address) (first second : Knowledge) : Prop :=
  ∃ node final, writeBoth address first second store = .ok node final

/-- The history of the node of an address, which is empty if there is no such node yet. -/
def historyOf (store : Store) (address : Address) : History :=
  (store.node (store.register address).1).history

/-- The current revision only inherits what it sees of the node, and the write adds to it. -/
def Extends (store : Store) (address : Address) (knowledge : Knowledge) : Prop :=
  (store.historyOf address).Extends (store.revisions.lineage store.current) store.current knowledge

/-- The current revision only inherits what it sees of the node, and the write stands against it. -/
def Contradicts (store : Store) (address : Address) (knowledge : Knowledge) : Prop :=
  (store.historyOf address).Contradicts (store.revisions.lineage store.current) store.current
    knowledge

theorem revised_register (store : Store) (address : Address) (knowledge : Knowledge) :
    (store.register address).2.revised (store.register address).1 knowledge =
      (store.historyOf address).commit (store.revisions.lineage store.current) store.current
        knowledge := by
  rw [revised, history_register, Store.current, (Step.register store address).revisions_eq]
  rfl

/-- A write is accepted if the history of its node takes it. -/
theorem exists_write {history : History}
    (hcommit : (store.historyOf address).commit (store.revisions.lineage store.current)
      store.current knowledge = .ok history) :
    ∃ node final, write address knowledge store = .ok node final := by
  rw [write_eq, revised_register, hcommit]
  exact ⟨_, _, rfl⟩

/-- After an accepted write its address leads to the same node, which has the new history. -/
theorem Intact.write_eq_ok (hintact : store.Intact)
    (hwrite : write address knowledge store = .ok node final) :
    final.register address = ((store.register address).1, final) ∧
      final.revisions = store.revisions ∧
      (store.historyOf address).commit (store.revisions.lineage store.current) store.current
        knowledge = .ok (final.historyOf address) := by
  rw [write_eq, revised_register] at hwrite
  cases hcommit : (store.historyOf address).commit (store.revisions.lineage store.current)
      store.current knowledge with
  | error conflict =>
    rw [hcommit] at hwrite
    cases hwrite
  | ok history =>
    rw [hcommit] at hwrite
    cases hwrite
    have hlookup : ((store.register address).2.setHistory (store.register address).1
        history).lookup? address = some (store.register address).1 := lookup?_register store address
    have hregister := register_of_lookup hlookup
    refine ⟨hregister, (Step.register store address).revisions_eq, congrArg Except.ok ?_⟩
    rw [historyOf, hregister, node_setHistory (hintact.contains_register address), if_pos rfl]

theorem Intact.write (hintact : store.Intact)
    (hwrite : write address knowledge store = .ok node final) : final.Intact := by
  have hsteps := Steps.write address knowledge store
  rw [stateAfter, hwrite] at hsteps
  exact (Move.steps hsteps).intact hintact

theorem writeBoth_eq_ok : writeBoth address first second store = .ok node final ↔
    ∃ node' middle, Store.write address first store = .ok node' middle ∧
      Store.write address second middle = .ok node final := by
  simp only [writeBoth, bind, EStateM.bind]
  cases Store.write address first store with
  | ok node' middle =>
    constructor
    · exact fun hwrite ↦ ⟨node', middle, rfl, hwrite⟩
    · rintro ⟨_, _, hmiddle, hwrite⟩
      cases hmiddle
      exact hwrite
  | error error middle =>
    refine iff_of_false (fun hwrite ↦ by cases hwrite) ?_
    rintro ⟨_, _, hmiddle, -⟩
    cases hmiddle

/-- Two accepted writes, in terms of the history of their node. -/
theorem Intact.commitBoth_of_writeBoth (hintact : store.Intact)
    (hboth : writeBoth address first second store = .ok node final) :
    node = (store.register address).1 ∧
      final.knowledge? node =
        (final.historyOf address).visible? (store.revisions.lineage store.current) ∧
      (store.historyOf address).commitBoth (store.revisions.lineage store.current) store.current
        first second = .ok (final.historyOf address) := by
  obtain ⟨node', middle, hfirst, hsecond⟩ := writeBoth_eq_ok.1 hboth
  obtain ⟨hregister, hrevisions, hcommit⟩ := hintact.write_eq_ok hfirst
  obtain ⟨hregister', hrevisions', hcommit'⟩ := (hintact.write hfirst).write_eq_ok hsecond
  have hnode : node = (store.register address).1 := by
    rw [(write_ok hsecond).1, hregister]
  rw [hregister] at hregister'
  rw [Store.current, hrevisions] at hcommit'
  refine ⟨hnode, ?_, Merge.bind_eq_ok.2 ⟨_, hcommit, hcommit'⟩⟩
  rw [historyOf, hregister', knowledge?, knowledgeAt?, Store.current, hrevisions', hrevisions, hnode]
  rfl

theorem Intact.accepts_iff (hintact : store.Intact) : store.Accepts address first second ↔
    ∃ history, (store.historyOf address).commitBoth (store.revisions.lineage store.current)
      store.current first second = .ok history := by
  constructor
  · rintro ⟨node, final, hboth⟩
    exact ⟨_, (hintact.commitBoth_of_writeBoth hboth).2.2⟩
  · rintro ⟨history, hcommits⟩
    obtain ⟨middle, hmiddle, hcommit⟩ := Merge.bind_eq_ok.1 hcommits
    obtain ⟨node', later, hfirst⟩ := exists_write hmiddle
    obtain ⟨-, hrevisions, hcommit'⟩ := hintact.write_eq_ok hfirst
    rw [hmiddle] at hcommit'
    cases hcommit'
    have hcommit' : (later.historyOf address).commit (later.revisions.lineage later.current)
        later.current second = .ok history := by
      rw [Store.current, hrevisions]
      exact hcommit
    obtain ⟨node, final, hsecond⟩ := exists_write hcommit'
    exact ⟨node, final, writeBoth_eq_ok.2 ⟨node', later, hfirst, hsecond⟩⟩

/-- The order of two writes to one address at the current revision.  They are accepted in either
order or in none, unless the revision only inherits what it sees of the node and one of them, taken
with what the revision has written before, adds to it while the other one stands against it: then
the one that adds must not come first.  If both orders are accepted, what is seen of the node in the
end says the same. -/
theorem writeBoth_comm (hreachable : store.Reachable) (address : Address)
    (first second : Knowledge) :
    (¬(store.Extends address first ∧ store.Contradicts address second) →
      ¬(store.Extends address second ∧ store.Contradicts address first) →
      (store.Accepts address first second ↔ store.Accepts address second first)) ∧
    (store.Extends address first → store.Contradicts address second →
      ¬store.Accepts address first second) ∧
    ∀ {node node' final final'}, writeBoth address first second store = .ok node final →
      writeBoth address second first store = .ok node' final' →
      node = node' ∧ (final.knowledge? node).map Knowledge.canonical =
        (final'.knowledge? node').map Knowledge.canonical := by
  have hintact := hreachable.intact
  obtain ⟨ancestors, hlineage⟩ := store.exists_lineage_current
  simp only [hintact.accepts_iff, Extends, Contradicts, hlineage]
  refine ⟨fun hforth hback ↦ ?_, fun hextends hcontradicts ↦
    History.commitBoth_refused hextends hcontradicts, fun {node node' final final'} hboth hboth' ↦ ?_⟩
  · constructor
    · rintro ⟨history, hcommits⟩
      exact History.commitBoth_comm (not_or.2 ⟨hforth, hback⟩) hcommits
    · rintro ⟨history, hcommits⟩
      exact History.commitBoth_comm (not_or.2 ⟨hback, hforth⟩) hcommits
  · obtain ⟨hnode, hseen, hcommits⟩ := hintact.commitBoth_of_writeBoth hboth
    obtain ⟨hnode', hseen', hcommits'⟩ := hintact.commitBoth_of_writeBoth hboth'
    rw [hlineage] at hseen hseen' hcommits hcommits'
    refine ⟨hnode.trans hnode'.symm, ?_⟩
    rw [hseen, hseen']
    exact History.canonical_visible?_commitBoth hcommits hcommits'

/-- One revision on top of the root, for which nothing is known but that the node is an input. -/
def inherited : Store :=
  oneInput ({} : Revisions).spawn.2 ⟨[(.root, { explanation := some .given })], []⟩

theorem inherited_reachable : inherited.Reachable := by
  refine ⟨[.write (.input ⟨0⟩) { explanation := some .given }, .spawn], ?_⟩
  have hlookup : empty.lookup? (.input ⟨0⟩) = none := by simp [lookup?, empty]
  have hwrite : Store.write (.input ⟨0⟩) { explanation := some .given } empty =
      .ok ⟨0⟩ (oneInput {} ⟨[(.root, { explanation := some .given })], []⟩) := by
    rw [write_eq, register_of_none hlookup]
    rfl
  rw [after, List.foldl_cons, Operation.run, stateAfter, hwrite]
  rfl

theorem historyOf_inherited :
    inherited.historyOf (.input ⟨0⟩) = ⟨[(.root, { explanation := some .given })], []⟩ := by
  have hlookup : inherited.lookup? (.input ⟨0⟩) = some ⟨0⟩ := by simp [lookup?, inherited, oneInput]
  rw [historyOf, register_of_lookup hlookup]
  rfl

/-- Adding a value and repeating the explanation commute. -/
theorem writeBoth_comm_inherited :
    inherited.Reachable ∧
    inherited.Accepts (.input ⟨0⟩) { value := some (.text "new") } { explanation := some .given } ∧
    inherited.Accepts (.input ⟨0⟩) { explanation := some .given } { value := some (.text "new") } := by
  have hforth : inherited.Accepts (.input ⟨0⟩) { value := some (.text "new") }
      { explanation := some .given } := by
    rw [inherited_reachable.intact.accepts_iff, historyOf_inherited]
    exact ⟨_, rfl⟩
  refine ⟨inherited_reachable, hforth,
    ((writeBoth_comm inherited_reachable _ _ _).1 ?_ ?_).1 hforth⟩
  · rintro ⟨-, -, -, inherited, written, conflict, hvisible, hwritten, hmerge⟩
    rw [historyOf_inherited] at hvisible hwritten
    cases hvisible
    cases hwritten
    cases hmerge
  · rintro ⟨-, -, -, inherited, written, conflict, hvisible, hwritten, hmerge⟩
    rw [historyOf_inherited] at hvisible hwritten
    cases hvisible
    cases hwritten
    cases hmerge

/-- Adding a value and replacing the explanation do not: once the value is added, the explanation
belongs to the revision itself. -/
theorem writeBoth_not_comm : ∃ (store : Store) (address : Address) (first second : Knowledge),
    store.Reachable ∧ ¬(store.Accepts address first second ↔ store.Accepts address second first) := by
  refine ⟨inherited, .input ⟨0⟩, { value := some (.text "new") },
    { explanation := some (.lookup ⟨0⟩ ⟨0⟩) }, inherited_reachable, fun hiff ↦ ?_⟩
  rw [inherited_reachable.intact.accepts_iff, inherited_reachable.intact.accepts_iff,
    historyOf_inherited] at hiff
  obtain ⟨history, hcommits⟩ := hiff.2 ⟨_, rfl⟩
  cases hcommits

end Store

end Whence
