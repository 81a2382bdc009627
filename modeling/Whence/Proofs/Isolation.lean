import Whence.Proofs.Reachability
import Whence.Proofs.Sessions

/-!
# Revisions are isolated

What happens while a revision is current is seen in that revision and in those opened on it, and
nowhere else.  A write reaches a later revision only if none on the way there has an entry of its
own.  A session never goes back to a revision, so that all but the current one are frozen.
-/

namespace Whence

/-- The revisions from `later` up to `earlier`, which is left out. -/
def Revisions.path (revisions : Revisions) (later earlier : Revision) : List Revision :=
  (revisions.lineage later).takeWhile (· ≠ earlier)

namespace Store

variable {store final : Store} {node : NodeId} {revision : Revision}

theorem Step.knowledgeAt?_eq (hstep : Step store final)
    (hhidden : store.revisions.precedes store.current revision = false) :
    final.knowledgeAt? node revision = store.knowledgeAt? node revision := by
  rw [knowledgeAt?, knowledgeAt?, hstep.revisions_eq]
  obtain hsame | ⟨knowledge, hcommits⟩ := hstep.history node
  · rw [hsame]
  · refine hcommits.visible?_eq fun hmem ↦ ?_
    rw [Revisions.precedes, List.contains_iff_mem.2 hmem] at hhidden
    cases hhidden

theorem Steps.current_eq (hsteps : Steps store final) : final.current = store.current := by
  rw [Store.current, hsteps.revisions_eq, Store.current]

theorem Steps.knowledgeAt?_eq (hsteps : Steps store final)
    (hhidden : store.revisions.precedes store.current revision = false) :
    final.knowledgeAt? node revision = store.knowledgeAt? node revision := by
  induction hsteps with
  | refl => rfl
  | tail hsteps hstep ih =>
    rw [← Steps.revisions_eq hsteps, ← Steps.current_eq hsteps] at hhidden
    exact (hstep.knowledgeAt?_eq hhidden).trans ih

theorem knowledgeAt?_spawn (store : Store) (hrevision : store.revisions.contains revision = true) :
    store.spawn.2.knowledgeAt? node revision = store.knowledgeAt? node revision := by
  change (store.node node).history.visible? (store.revisions.spawn.2.lineage revision) = _
  rw [Revisions.lineage_spawn hrevision, knowledgeAt?]

theorem Move.knowledgeAt?_eq (hmove : store.Move final)
    (hrevision : store.revisions.contains revision = true)
    (hhidden : store.revisions.precedes store.current revision = false) :
    final.knowledgeAt? node revision = store.knowledgeAt? node revision := by
  cases hmove with
  | steps hsteps => exact hsteps.knowledgeAt?_eq hhidden
  | spawn => exact knowledgeAt?_spawn store hrevision
  | checkout hcheckout =>
    -- Another revision is current, but all lineages are the same.
    obtain ⟨_, rfl⟩ := Revisions.checkout?_eq_some hcheckout
    rfl

variable {address : Address} {knowledge : Knowledge}

/-- A write is seen in its own node alone. -/
theorem write_knowledgeAt?_of_ne (hwrite : write address knowledge store = .ok node final)
    {other : NodeId} (hother : other ≠ node) (revision : Revision) :
    final.knowledgeAt? other revision = store.knowledgeAt? other revision := by
  rw [knowledgeAt?, knowledgeAt?, write_revisions hwrite]
  obtain ⟨-, history, rfl, -⟩ := write_ok hwrite
  obtain hsame | ⟨heq, -⟩ := history_setHistory (store.register address).2 node other history
  · rw [hsame, history_register]
  · exact absurd heq.symm hother

/-- A write is not seen beyond an entry of another revision. -/
theorem write_knowledgeAt?_of_entry (hwrite : write address knowledge store = .ok node final)
    {nearer : Revision} (hpath : nearer ∈ store.revisions.path revision store.current)
    (hentry : nearer ∈ store.versions node) :
    final.knowledgeAt? node revision = store.knowledgeAt? node revision := by
  rw [knowledgeAt?, knowledgeAt?, write_revisions hwrite]
  obtain ⟨-, history, rfl, hcommits⟩ := write_ok hwrite
  obtain hsame | ⟨-, hnew⟩ := history_setHistory (store.register address).2 node node history
  · rw [hsame, history_register]
  · rw [hnew]
    exact hcommits.visible?_eq fun _ ↦ ⟨nearer, hpath, hentry⟩

end Store

/-- The current revision is the youngest. -/
def Revisions.Latest (revisions : Revisions) : Prop :=
  revisions.current.index + 1 = revisions.size

namespace Revisions.Latest

variable {revisions : Revisions} {revision : Revision}

theorem initial : Latest {} := rfl

theorem spawn (revisions : Revisions) : revisions.spawn.2.Latest := by
  simp [Latest, Revisions.spawn, Revisions.size]

/-- The current revision precedes no other one. -/
theorem not_precedes (hlatest : revisions.Latest) (hrevision : revisions.contains revision = true)
    (hother : revision ≠ revisions.current) : revisions.precedes revisions.current revision = false := by
  apply Revisions.not_precedes_of_lt
  have hlt : revision.index < revisions.size := of_decide_eq_true hrevision
  have hne : revision.index ≠ revisions.current.index := fun heq ↦ hother (congrArg Revision.mk heq)
  have hsize : revisions.current.index + 1 = revisions.size := hlatest
  omega

end Revisions.Latest

namespace Session

variable {session : Session} {node : NodeId} {revision : Revision}

theorem respond_store {α : Type} (session : Session) (wrap : α → Answer)
    (evaluating : Evaluating α) :
    (session.respond wrap (evaluating session.machine)).2.store =
      (stateAfter evaluating session.machine).store := by
  rw [stateAfter]
  cases evaluating session.machine <;> rfl

/-- A call opens a revision or changes the store in steps. -/
theorem answer_store (session : Session) (call : Call) :
    (session.answer call).2.store = session.store.spawn.2 ∨
      session.store.Steps (session.answer call).2.store := by
  cases call with
  | input value =>
    rw [answer_input, respond_store]
    exact .inr (Stepwise.perform (.input value) session.machine)
  | bind env name node =>
    cases hname : session.program.symbol? name with
    | none =>
      rw [answer_bind_of_none hname]
      exact .inr .refl
    | some symbol =>
      rw [answer_bind_of_some hname]
      exact .inr (.single (.extend session.store env symbol (.node node)))
  | spawn => exact .inl rfl
  | update node value =>
    rw [answer_update, respond_store]
    exact .inr (Stepwise.perform (.update node value) session.machine)
  | evaluate env expr =>
    rw [answer_evaluate, respond_store]
    exact .inr (Stepwise.evaluate session.program session.settings env expr session.machine)

theorem new_latest {program : Program} {settings : Settings}
    (hnew : Session.new program settings = .ok session) : session.store.revisions.Latest := by
  have hsteps := Stepwise.openLibrary program {}
  rw [stateAfter] at hsteps
  cases hrun : Evaluation.openLibrary program {} with
  | ok library machine =>
    rw [new_eq_of_opened hrun settings] at hnew
    rw [hrun] at hsteps
    cases hnew
    change machine.store.revisions.Latest
    rw [hsteps.revisions_eq]
    exact .initial
  | error error machine =>
    have hlibrary : openLibrary (bare program settings) =
        .error error ⟨program, settings, machine, {}, .empty⟩ := by
      change run (Evaluation.openLibrary program) (bare program settings) = _
      simp only [run, bare, hrun]
    simp only [Session.new, hlibrary] at hnew
    cases hnew

theorem answer_latest (hlatest : session.store.revisions.Latest) (call : Call) :
    (session.answer call).2.store.revisions.Latest := by
  obtain hspawn | hsteps := answer_store session call
  · rw [hspawn]
    exact Revisions.Latest.spawn _
  · rw [hsteps.revisions_eq]
    exact hlatest

theorem after_latest (hlatest : session.store.revisions.Latest) (calls : List Call) :
    (session.after calls).store.revisions.Latest := by
  induction calls generalizing session with
  | nil => exact hlatest
  | cons call calls ih => exact ih (answer_latest hlatest call)

/-- A call leaves a revision that is not current as it is, and does not make it current. -/
theorem answer_frozen (hlatest : session.store.revisions.Latest) (call : Call)
    (hrevision : session.store.revisions.contains revision = true)
    (hother : revision ≠ session.store.current) :
    (session.answer call).2.store.revisions.contains revision = true ∧
      revision ≠ (session.answer call).2.store.current ∧
      ∀ node, (session.answer call).2.store.knowledgeAt? node revision =
        session.store.knowledgeAt? node revision := by
  obtain hspawn | hsteps := answer_store session call
  · rw [hspawn]
    refine ⟨Revisions.contains_spawn hrevision, ?_, fun node ↦
      session.store.knowledgeAt?_spawn hrevision⟩
    rintro rfl
    exact absurd (of_decide_eq_true hrevision) (Nat.lt_irrefl _)
  · rw [hsteps.revisions_eq, hsteps.current_eq]
    exact ⟨hrevision, hother, fun node ↦
      hsteps.knowledgeAt?_eq (hlatest.not_precedes hrevision hother)⟩

theorem after_frozen (hlatest : session.store.revisions.Latest) (calls : List Call)
    (hrevision : session.store.revisions.contains revision = true)
    (hother : revision ≠ session.store.current) (node : NodeId) :
    (session.after calls).store.knowledgeAt? node revision =
      session.store.knowledgeAt? node revision := by
  induction calls generalizing session with
  | nil => rfl
  | cons call calls ih =>
    obtain ⟨hrevision', hother', hsame⟩ := answer_frozen hlatest call hrevision hother
    exact (ih (answer_latest hlatest call) hrevision' hother').trans (hsame node)

end Session

/-- Revisions are isolated.  Whatever operation is performed, a revision that existed before and is
neither the current one nor opened on it holds for every node what it held.  An accepted write
changes no other node, and it changes what a revision opened on the current one holds only if no
revision on the way there has an entry of its own for the node.  In a session every revision but the
current one stays as it is, whatever calls follow. -/
theorem revisions_isolated :
    (∀ (store : Store) (operation : Operation) (node : NodeId) (revision : Revision),
      store.revisions.contains revision = true →
      store.revisions.precedes store.current revision = false →
      (operation.run store).knowledgeAt? node revision = store.knowledgeAt? node revision) ∧
    (∀ (store : Store) (address : Address) (knowledge : Knowledge) (id : NodeId) (final : Store),
      Store.write address knowledge store = .ok id final →
      (∀ node revision, node ≠ id →
        final.knowledgeAt? node revision = store.knowledgeAt? node revision) ∧
      ∀ revision, revision ≠ store.current →
        store.revisions.precedes store.current revision = true →
        final.knowledgeAt? id revision ≠ store.knowledgeAt? id revision →
        ∀ nearer ∈ store.revisions.path revision store.current, nearer ∉ store.versions id) ∧
    ∀ (program : Program) (settings : Settings) (session : Session) (calls later : List Session.Call)
      (node : NodeId) (revision : Revision), Session.new program settings = .ok session →
      (session.after calls).store.revisions.contains revision = true →
      revision ≠ (session.after calls).store.current →
      ((session.after calls).after later).store.knowledgeAt? node revision =
        (session.after calls).store.knowledgeAt? node revision := by
  refine ⟨?_, ?_, ?_⟩
  · intro store operation node revision hrevision hhidden
    exact (store.run_move operation).knowledgeAt?_eq hrevision hhidden
  · intro store address knowledge id final hwrite
    refine ⟨fun node revision hnode ↦ Store.write_knowledgeAt?_of_ne hwrite hnode revision, ?_⟩
    intro revision _ _ hchanged nearer hpath hentry
    exact hchanged (Store.write_knowledgeAt?_of_entry hwrite hpath hentry)
  · intro program settings session calls later node revision hnew hrevision hother
    have hlatest := Session.after_latest (Session.new_latest hnew) calls
    exact Session.after_frozen hlatest later hrevision hother node

/-- A new value for an input is seen in the revision that writes it, and not in the root. -/
theorem revisions_isolated_oneInput : ∃ store : Store, store.Reachable ∧
    (Operation.run store (.update ⟨0⟩ (.text "new"))).knowledgeAt? ⟨0⟩ .root =
      some (.of .given (.text "old")) ∧
    (Operation.run store (.update ⟨0⟩ (.text "new"))).knowledgeAt? ⟨0⟩ store.current =
      some (.of .given (.text "new")) := by
  let store : Store :=
    .oneInput ({} : Revisions).spawn.2 ⟨[(.root, .of .given (.text "old"))], []⟩
  have hreachable : store.Reachable := by
    refine ⟨[.input (.text "old"), .spawn], ?_⟩
    rw [Store.after, List.foldl_cons, Store.run_input_empty]
    rfl
  refine ⟨store, hreachable, ?_, ?_⟩
  · rw [revisions_isolated.1 store (.update ⟨0⟩ (.text "new")) ⟨0⟩ .root (by decide) (by decide)]
    rfl
  · rw [Store.run_update_oneInput ({} : Revisions).spawn.2 rfl]
    rfl

end Whence
