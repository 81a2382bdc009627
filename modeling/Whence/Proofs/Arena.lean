import Whence.Proofs.Persistence
import Whence.Proofs.Slice.Accumulation

/-!
# How nodes are represented

Addresses and nodes determine each other.  The entries of a node belong to different revisions, all
of which exist, and so do its echoes; a revision that has left an echo has no entry of its own and
inherits one.  Nothing that is kept is blank.  All of this holds after any run of operations and
slices, and a node keeps its address from the time it is made.
-/

namespace Whence

theorem Knowledge.isBlank_of_below {knowledge held : Knowledge} (hbelow : below knowledge held)
    (hblank : knowledge.isBlank = false) : held.isBlank = false := by
  obtain ⟨hexplanation, hvalue⟩ := hbelow
  obtain ⟨_ | _, _ | _⟩ := knowledge <;> obtain ⟨_ | _, _ | _⟩ := held <;>
    simp_all [Knowledge.isBlank, below, Merge.optionsBelow]

namespace History

variable {revisions : Revisions} {history final : History} {lineage : List Revision}
  {revision : Revision} {knowledge written : Knowledge}

/-- The revisions that have left an echo. -/
def echoing (history : History) : List Revision := history.echoes.map Prod.fst

/-- The entries and echoes of a node belong to revisions that exist, at most one to each.  A revision
with an echo has no entry of its own but inherits one. -/
structure Consistent (revisions : Revisions) (history : History) : Prop where
  nodup : history.versions.Nodup
  exist : ∀ revision ∈ history.versions, revisions.contains revision = true
  full : ∀ entry ∈ history.entries, entry.2.isBlank = false
  nodup_echoing : history.echoing.Nodup
  exist_echoing : ∀ revision ∈ history.echoing, revisions.contains revision = true
  full_echoes : ∀ echo ∈ history.echoes, echo.2.isBlank = false
  own : ∀ revision ∈ history.echoing, revision ∉ history.versions
  inherited : ∀ revision ∈ history.echoing,
    ∃ ancestor ∈ revisions.lineage revision, ancestor ∈ history.versions

theorem mem_dropEcho_iff {echo : Revision × Knowledge} :
    echo ∈ history.dropEcho revision ↔ echo ∈ history.echoes ∧ echo.1 ≠ revision := by
  simp [dropEcho, List.mem_filter]

theorem exists_version_of_visible (hvisible : history.visible? lineage = some knowledge) :
    ∃ ancestor ∈ lineage, ancestor ∈ history.versions := by
  obtain ⟨ancestor, hancestor, hlookup⟩ := List.exists_of_findSome?_eq_some hvisible
  exact ⟨ancestor, hancestor, mem_versions_of_lookup hlookup⟩

namespace Consistent

theorem initial (revisions : Revisions) : Consistent revisions {} := by
  constructor <;> simp [versions, echoing]

/-- A history outlasts a change to the revisions that keeps those that exist. -/
theorem keep (hconsistent : history.Consistent revisions) {later : Revisions}
    (hkeep : ∀ {revision}, revisions.contains revision = true →
      later.contains revision = true ∧ later.lineage revision = revisions.lineage revision) :
    history.Consistent later where
  nodup := hconsistent.nodup
  exist revision hversion := (hkeep (hconsistent.exist revision hversion)).1
  full := hconsistent.full
  nodup_echoing := hconsistent.nodup_echoing
  exist_echoing revision hecho := (hkeep (hconsistent.exist_echoing revision hecho)).1
  full_echoes := hconsistent.full_echoes
  own := hconsistent.own
  inherited revision hecho := by
    rw [(hkeep (hconsistent.exist_echoing revision hecho)).2]
    exact hconsistent.inherited revision hecho

theorem amend (hconsistent : history.Consistent revisions) (revision : Revision)
    (hblank : knowledge.isBlank = false) :
    (history.amend revision knowledge).Consistent revisions where
  nodup := by
    rw [versions_amend]
    exact hconsistent.nodup
  exist := by
    rw [versions_amend]
    exact hconsistent.exist
  full entry hentry := by
    obtain ⟨earlier, hearlier, rfl⟩ := List.mem_map.1 hentry
    split
    case isTrue => exact hblank
    case isFalse => exact hconsistent.full earlier hearlier
  nodup_echoing := hconsistent.nodup_echoing
  exist_echoing := hconsistent.exist_echoing
  full_echoes := hconsistent.full_echoes
  own := by
    rw [versions_amend]
    exact hconsistent.own
  inherited := by
    rw [versions_amend]
    exact hconsistent.inherited

/-- The first entry of a revision takes the place of its echo. -/
theorem enter (hconsistent : history.Consistent revisions)
    (hexists : revisions.contains revision = true) (hnone : revision ∉ history.versions)
    (hblank : knowledge.isBlank = false) :
    (history.enter revision knowledge).Consistent revisions := by
  have hechoing : ∀ {other}, other ∈ (history.enter revision knowledge).echoing →
      other ∈ history.echoing ∧ other ≠ revision := by
    intro other hother
    obtain ⟨echo, hecho, rfl⟩ := List.mem_map.1 hother
    obtain ⟨hecho, hne⟩ := mem_dropEcho_iff.1 hecho
    exact ⟨List.mem_map_of_mem hecho, hne⟩
  constructor
  case nodup =>
    rw [versions_enter, List.nodup_append]
    refine ⟨hconsistent.nodup, by simp, fun version hversion other hother ↦ ?_⟩
    rw [List.mem_singleton.1 hother]
    rintro rfl
    exact hnone hversion
  case exist =>
    intro version hversion
    rw [versions_enter, List.mem_append, List.mem_singleton] at hversion
    obtain hversion | rfl := hversion
    · exact hconsistent.exist version hversion
    · exact hexists
  case full =>
    intro entry hentry
    obtain hentry | hentry := List.mem_append.1 hentry
    · exact hconsistent.full entry hentry
    · rw [List.mem_singleton.1 hentry]
      exact hblank
  case nodup_echoing => exact hconsistent.nodup_echoing.sublist (List.filter_sublist.map _)
  case exist_echoing =>
    exact fun other hother ↦ hconsistent.exist_echoing other (hechoing hother).1
  case full_echoes => exact fun echo hecho ↦ hconsistent.full_echoes echo (mem_dropEcho_iff.1 hecho).1
  case own =>
    intro other hother
    obtain ⟨hother, hne⟩ := hechoing hother
    rw [versions_enter, List.mem_append, List.mem_singleton, not_or]
    exact ⟨hconsistent.own other hother, hne⟩
  case inherited =>
    intro other hother
    obtain ⟨ancestor, hancestor, hversion⟩ := hconsistent.inherited other (hechoing hother).1
    refine ⟨ancestor, hancestor, ?_⟩
    rw [versions_enter]
    exact List.mem_append_left _ hversion

/-- An echo is left by a revision that sees the entry of an ancestor only. -/
theorem echo (hconsistent : history.Consistent revisions)
    (hexists : revisions.contains revision = true) (hnone : revision ∉ history.versions)
    (hinherited : ∃ ancestor ∈ revisions.lineage revision, ancestor ∈ history.versions)
    (hblank : knowledge.isBlank = false) :
    (history.echo revision knowledge).Consistent revisions := by
  have hechoing : ∀ {other}, other ∈ (history.echo revision knowledge).echoing →
      other = revision ∨ other ∈ history.echoing := by
    intro other hother
    obtain rfl | hother := List.mem_cons.1 hother
    · exact .inl rfl
    · obtain ⟨echo, hecho, rfl⟩ := List.mem_map.1 hother
      exact .inr (List.mem_map_of_mem (mem_dropEcho_iff.1 hecho).1)
  constructor
  case nodup => exact hconsistent.nodup
  case exist => exact hconsistent.exist
  case full => exact hconsistent.full
  case nodup_echoing =>
    refine List.nodup_cons.2 ⟨fun hother ↦ ?_,
      hconsistent.nodup_echoing.sublist (List.filter_sublist.map _)⟩
    obtain ⟨echo, hecho, hsame⟩ := List.mem_map.1 hother
    exact (mem_dropEcho_iff.1 hecho).2 hsame
  case exist_echoing =>
    intro other hother
    obtain rfl | hother := hechoing hother
    · exact hexists
    · exact hconsistent.exist_echoing other hother
  case full_echoes =>
    intro echo hecho
    obtain rfl | hecho := List.mem_cons.1 hecho
    · exact hblank
    · exact hconsistent.full_echoes echo (mem_dropEcho_iff.1 hecho).1
  case own =>
    intro other hother
    obtain rfl | hother := hechoing hother
    · exact hnone
    · exact hconsistent.own other hother
  case inherited =>
    intro other hother
    obtain rfl | hother := hechoing hother
    · exact hinherited
    · exact hconsistent.inherited other hother

/-- An accepted write leaves the history consistent, unless it is blank: then it does nothing. -/
theorem commits (hconsistent : history.Consistent revisions)
    (hexists : revisions.contains revision = true) (hblank : knowledge.isBlank = false)
    (hcommits : Commits history (revisions.lineage revision) revision knowledge final) :
    final.Consistent revisions := by
  cases hcommits with
  | blank _ => exact hconsistent
  | amend _ hmerge =>
    exact hconsistent.amend revision (Knowledge.isBlank_of_below (below_right hmerge) hblank)
  | record hnone hwritten hrecords =>
    have hnone : revision ∉ history.versions := lookup_eq_none_iff.1 hnone
    have hwritten := Knowledge.isBlank_of_below (below_written hwritten).1 hblank
    cases hrecords with
    | first _ | replace _ _ => exact hconsistent.enter hexists hnone hwritten
    | extend _ hmerge =>
      apply hconsistent.enter hexists hnone
      exact Knowledge.isBlank_of_below (below_right hmerge) hwritten
    | echo hvisible _ _ =>
      exact hconsistent.echo hexists hnone (exists_version_of_visible hvisible) hwritten

theorem commit (hconsistent : history.Consistent revisions)
    (hexists : revisions.contains revision = true)
    (hcommit : history.commit (revisions.lineage revision) revision knowledge = .ok final) :
    final.Consistent revisions := by
  cases hblank : knowledge.isBlank with
  | true =>
    rw [History.commit, if_pos hblank] at hcommit
    cases hcommit
    exact hconsistent
  | false => exact hconsistent.commits hexists hblank (commit_spec hcommit)

end Consistent

end History

/-! ## Stores -/

namespace Store

variable {store final : Store} {node : NodeId} {address : Address}

/-- The nodes of a store are represented as they should be. -/
structure WellFormed (store : Store) : Prop where
  tree : store.revisions.Tree
  ids : ∀ {address node}, store.lookup? address = some node ↔
    store.Contains node ∧ store.address node = address
  history : ∀ node, (store.node node).history.Consistent store.revisions

theorem WellFormed.empty : Store.empty.WellFormed where
  tree := Revisions.tree _
  ids := by simp [lookup?, Store.empty, Contains, size]
  history _ := .initial _

/-- A node without history need not exist. -/
theorem contains_of_history (hhistory : (store.node node).history ≠ {}) : store.Contains node := by
  apply Classical.byContradiction
  intro hnode
  rw [node_eq_default hnode] at hhistory
  exact hhistory rfl

theorem WellFormed.register (hformed : store.WellFormed) (address : Address) :
    (store.register address).2.WellFormed where
  tree := Revisions.tree _
  ids := by
    cases hlookup : store.lookup? address with
    | some node =>
      rw [register_of_lookup hlookup]
      exact hformed.ids
    | none =>
      rw [register_of_none hlookup]
      exact allot_ids hformed.ids hlookup
  history node := by
    rw [history_register, (Step.register store address).revisions_eq]
    exact hformed.history node

theorem WellFormed.setHistory (hformed : store.WellFormed) {history : History}
    (hhistory : history.Consistent store.revisions) : (store.setHistory node history).WellFormed := by
  by_cases hnode : store.Contains node
  · refine ⟨hformed.tree, ?_, fun other ↦ ?_⟩
    · intro address other
      rw [Contains, size_setHistory, address_setHistory hnode]
      exact hformed.ids
    · obtain hsame | ⟨-, hsame⟩ := history_setHistory store node other history
      · rw [hsame]
        exact hformed.history other
      · rw [hsame]
        exact hhistory
  · rw [setHistory_of_not_contains hnode]
    exact hformed

theorem Step.wellFormed (hstep : Step store final) (hformed : store.WellFormed) :
    final.WellFormed := by
  cases hstep with
  | register address => exact hformed.register address
  | commit hrevised =>
    exact hformed.setHistory ((hformed.history _).commit store.revisions.contains_current hrevised)
  | extend env name binding => exact ⟨hformed.tree, hformed.ids, hformed.history⟩
  | note primitive node => exact ⟨hformed.tree, hformed.ids, hformed.history⟩

theorem Move.wellFormed (hmove : store.Move final) (hformed : store.WellFormed) :
    final.WellFormed := by
  have hkeep : ∀ {revision}, store.revisions.contains revision = true →
      final.revisions.contains revision = true ∧
        final.revisions.lineage revision = store.revisions.lineage revision := hmove.outlives.lineage
  cases hmove with
  | steps hsteps =>
    clear hkeep
    induction hsteps with
    | refl => exact hformed
    | tail _ hstep ih => exact hstep.wellFormed ih
  | spawn =>
    exact ⟨store.revisions.spawn.2.tree, hformed.ids, fun node ↦ (hformed.history node).keep hkeep⟩
  | checkout hcheckout =>
    exact ⟨Revisions.tree _, hformed.ids,
      fun node ↦ (hformed.history node).keep hkeep⟩

/-- The second store knows the addresses of the first one by the same numbers. -/
def Remembers (final store : Store) : Prop :=
  ∀ {address node}, store.lookup? address = some node → final.lookup? address = some node

theorem Step.remembers (hstep : Step store final) : final.Remembers store := by
  intro address node hlookup
  cases hstep with
  | register address' => exact (register_grows store address').lookup hlookup
  | commit _ => exact hlookup
  | extend env name binding => exact hlookup
  | note primitive node => exact hlookup

theorem Move.remembers (hmove : store.Move final) : final.Remembers store := by
  cases hmove with
  | steps hsteps =>
    induction hsteps with
    | refl => exact fun hlookup ↦ hlookup
    | tail _ hstep ih => exact fun hlookup ↦ hstep.remembers (ih hlookup)
  | spawn => exact fun hlookup ↦ hlookup
  | checkout hcheckout =>
    obtain ⟨_, rfl⟩ := Revisions.checkout?_eq_some hcheckout
    exact fun hlookup ↦ hlookup

end Store

/-! ## Runs of operations and slices -/

namespace Session

/-- A slice, or another change of the marks. -/
inductive Slicing where
  | reset (direction : Direction)
  | forward (roots : List Target)
  | backward (roots : List Target)
  | remark (operation : Marks → Store → Except Error Marks)

def Slicing.perform : Slicing → InSession Unit
  | .reset direction => Session.reset direction
  | .forward roots => sliceForward roots
  | .backward roots => sliceBackward roots
  | .remark operation => Session.remark operation

/-- What is done to a session: an operation on its store or a slice. -/
inductive Act where
  | operate (operation : Operation)
  | slice (slicing : Slicing)

/-- The session after an act that has succeeded or failed. -/
def Act.run (session : Session) : Act → Session
  | .operate operation =>
    { session with machine := { session.machine with store := operation.run session.store } }
  | .slice slicing => stateAfter slicing.perform session

/-- The session after a run of acts. -/
def afterActs (session : Session) (acts : List Act) : Session := acts.foldl Act.run session

theorem remark_store (operation : Marks → Store → Except Error Marks) (session : Session) :
    (stateAfter (remark operation) session).store = session.store := by
  simp only [stateAfter, remark, run_get_bind]
  cases operation session.marks session.store <;> rfl

/-- Slices read the store and do not change it. -/
theorem Slicing.perform_store (slicing : Slicing) (session : Session) :
    (stateAfter slicing.perform session).store = session.store := by
  cases slicing with
  | reset direction => rfl
  | forward roots | backward roots =>
    simp only [perform, sliceForward, sliceBackward, stateAfter, run_bind, ensureDirection_eq]
    exact remark_store _ _
  | remark operation => exact remark_store operation session

theorem Act.run_move (session : Session) (act : Act) :
    session.store.Move (act.run session).store := by
  cases act with
  | operate operation => exact session.store.run_move operation
  | slice slicing =>
    rw [Act.run, slicing.perform_store]
    exact .steps .refl

theorem afterActs_wellFormed {session : Session} (hformed : session.store.WellFormed)
    (acts : List Act) : (session.afterActs acts).store.WellFormed := by
  induction acts generalizing session with
  | nil => exact hformed
  | cons act acts ih => exact ih ((act.run_move session).wellFormed hformed)

theorem afterActs_remembers (session : Session) (acts : List Act) :
    (session.afterActs acts).store.Remembers session.store := by
  induction acts generalizing session with
  | nil => exact fun hlookup ↦ hlookup
  | cons act acts ih => exact fun hlookup ↦ ih _ ((act.run_move session).remembers hlookup)

/-- Whatever is done, the store is well-formed: addresses and nodes determine each other, entries and
echoes belong to one existing revision each, nothing kept is blank, and an echo is left only where an
entry is inherited and none is owned, at a node that exists.  A node that exists keeps its address
whatever follows. -/
theorem representation (program : Program) (settings : Settings) (acts later : List Act) :
    let session := (bare program settings).afterActs acts
    let final := session.afterActs later
    session.store.WellFormed ∧
      (∀ node, (session.store.node node).history.echoing ≠ [] → session.store.Contains node) ∧
      ∀ node, session.store.Contains node → final.store.Contains node ∧
        final.store.address node = session.store.address node ∧
        final.store.lookup? (session.store.address node) = some node := by
  intro session final
  have hbare : (bare program settings).store.WellFormed := .empty
  have hformed : session.store.WellFormed := afterActs_wellFormed hbare acts
  have hfinal : final.store.WellFormed := afterActs_wellFormed hformed later
  refine ⟨hformed, fun node hechoing ↦ ?_, fun node hnode ↦ ?_⟩
  · apply Store.contains_of_history
    intro hhistory
    rw [hhistory] at hechoing
    exact hechoing rfl
  · have hlookup := afterActs_remembers session later (hformed.ids.2 ⟨hnode, rfl⟩)
    obtain ⟨hcontains, haddress⟩ := hfinal.ids.1 hlookup
    exact ⟨hcontains, haddress, hlookup⟩

end Session

end Whence
