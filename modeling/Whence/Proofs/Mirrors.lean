import Whence.Proofs.Parallels.Stores

/-!
# Later revisions look like the first one

As long as nothing is written against what a revision inherits, the revision might as well be the
only one: the store looks like one in which no revision was ever opened.  Such a store mirrors the
other one.  Whatever an evaluation does to the mirror it does to the other store as well: what is
new becomes an entry of the current revision, and what is inherited is only echoed.
-/

namespace Whence

namespace History

variable {history final : History} {current : Revision} {ancestors : List Revision}
  {known : Option Knowledge} {knowledge : Knowledge}

/-- What the current revision sees: it has inherited it and written only what agrees with it, or its
ancestors have nothing and it sees its own entry. -/
inductive Shows (history : History) (current : Revision) (ancestors : List Revision) :
    Option Knowledge → Prop
  | inherited {known : Knowledge} : history.visible? ancestors = some known →
    history.entries.lookup current = none →
    (∀ echo, history.echoes.lookup current = some echo → below echo known) →
    Shows history current ancestors (some known)
  | own : history.visible? ancestors = none → history.echoes.lookup current = none →
    Shows history current ancestors (history.entries.lookup current)

namespace Shows

theorem visible? (hshows : history.Shows current ancestors known) :
    history.visible? (current :: ancestors) = known := by
  cases hshows with
  | inherited hancestors hentry _ =>
    rw [History.visible?, List.findSome?_cons, hentry]
    exact hancestors
  | own hancestors _ =>
    rw [History.visible?, List.findSome?_cons]
    cases history.entries.lookup current with
    | some known => rfl
    | none => exact hancestors

/-- The current revision has an entry exactly if it sees something that its ancestors do not. -/
theorem mem_versions_iff (hshows : history.Shows current ancestors known) :
    current ∈ history.versions ↔ history.visible? ancestors = none ∧ known.isSome = true := by
  rw [← not_iff_not, ← lookup_eq_none_iff]
  cases hshows with
  | inherited hancestors hentry _ => simp [hancestors, hentry]
  | own hancestors _ =>
    simp only [hancestors, true_and, Option.isSome_iff_ne_none, ne_eq, not_not]

/-- A history that is still empty shows nothing. -/
theorem empty (current : Revision) (ancestors : List Revision) :
    Shows {} current ancestors none :=
  .own (by simp [History.visible?]) rfl

/-- A revision that has just been opened sees what the one it was opened on sees. -/
theorem opened {lineage : List Revision} (hvisible : history.visible? lineage = known)
    (hheld : history.held? current = none) : history.Shows current lineage known := by
  obtain ⟨hentry, hecho⟩ := Option.or_eq_none_iff.1 hheld
  cases known with
  | some known =>
    exact .inherited hvisible hentry fun echo hlookup ↦ by
      rw [hecho] at hlookup
      cases hlookup
  | none =>
    rw [← hentry]
    exact .own hvisible hecho

variable (hcurrent : current ∉ ancestors)

include hcurrent

/-- What is new becomes an entry of the current revision. -/
theorem commit_new (hshows : history.Shows current ancestors none)
    (hblank : knowledge.isBlank = false) :
    ∃ final, history.commit (current :: ancestors) current knowledge = .ok final ∧
      final.Shows current ancestors (some knowledge) := by
  have hvisible := hshows.visible?
  generalize hknown : (none : Option Knowledge) = known at hshows
  cases hshows with
  | inherited _ _ _ => cases hknown
  | own hancestors hecho =>
    have hcommit : history.commit (current :: ancestors) current knowledge =
        .ok (history.enter current knowledge) := by
      simp only [commit, hblank, ← hknown, written, hecho, record, hvisible]
      rfl
    have hentry : (history.enter current knowledge).entries.lookup current = some knowledge := by
      rw [lookup_enter, ← hknown, if_pos rfl, Option.none_or]
    refine ⟨_, hcommit, hentry ▸ .own ?_ ?_⟩
    · rw [(commit_spec hcommit).visible?_eq fun hmem ↦ absurd hmem hcurrent, hancestors]
    · exact (lookup_dropEcho history current current).trans (if_pos rfl)

/-- What is there already is only echoed, or found in the entry of the current revision. -/
theorem commit_known {held : Knowledge} (hshows : history.Shows current ancestors (some held))
    (hblank : knowledge.isBlank = false) (hmerge : merge held knowledge = .ok held) :
    ∃ final, history.commit (current :: ancestors) current knowledge = .ok final ∧
      final.Shows current ancestors (some held) := by
  have hvisible := hshows.visible?
  have hbelow : below knowledge held := below_right hmerge
  generalize hknown : some held = known at hshows
  cases hshows with
  | inherited hancestors hentry hechoes =>
    cases hknown
    obtain ⟨written, hwritten, hcarried⟩ : ∃ written,
        history.written current knowledge = .ok written ∧ below written held := by
      unfold History.written
      cases hecho : history.echoes.lookup current with
      | none => exact ⟨knowledge, rfl, hbelow⟩
      | some echo =>
        obtain ⟨written, hwritten⟩ := merge_of_bounded (hechoes echo hecho) hbelow
        exact ⟨written, hwritten, (below_iff_of_merge hwritten).2 ⟨hechoes echo hecho, hbelow⟩⟩
    obtain ⟨merged, hmerged, hsame⟩ := Knowledge.below_iff_carries.1 hcarried
    have hrecord : history.record (current :: ancestors) current written =
        history.echo current written := by
      simp only [record, hvisible, hmerged, if_pos hsame]
    refine ⟨history.echo current written, ?_, .inherited hancestors hentry fun echo hecho ↦ ?_⟩
    · simp only [commit, hblank, hentry, hwritten, ← hrecord]
      rfl
    · rw [History.echo, lookup_cons, if_pos rfl] at hecho
      cases hecho
      exact hcarried
  | own hancestors hecho =>
    have hcommit : history.commit (current :: ancestors) current knowledge =
        .ok (history.amend current held) := by
      simp only [commit, hblank, ← hknown, hmerge]
      rfl
    have hentry : (history.amend current held).entries.lookup current = some held := by
      rw [lookup_amend, if_pos rfl, ← hknown, Option.map_some]
    rw [← hknown, ← hentry]
    refine ⟨_, hcommit, .own ?_ hecho⟩
    rw [(commit_spec hcommit).visible?_eq fun hmem ↦ absurd hmem hcurrent, hancestors]

end Shows

end History

namespace Store

variable {store final layered : Store} {node : NodeId} {address : Address} {knowledge : Knowledge}

/-- The first store holds what the current revision of the second one shows, as if no revision had been
opened. -/
structure Mirrors (store layered : Store) : Prop where
  alike : store.Alike layered
  intact : layered.Intact
  shows : ∀ {ancestors}, layered.revisions.lineage layered.current = layered.current :: ancestors →
    ∀ node, (layered.node node).history.Shows layered.current ancestors (store.knowledge? node)
  /-- No revision has written before it was opened. -/
  unopened : ∀ {revision}, layered.revisions.contains revision = false →
    ∀ node, (layered.node node).history.held? revision = none

theorem mirrors_iff_parallels : store.Mirrors layered ↔ store.Parallels History.Shows layered :=
  ⟨fun hmirrors ↦ ⟨hmirrors.alike, hmirrors.intact, hmirrors.shows, hmirrors.unopened⟩,
    fun hparallels ↦
      ⟨hparallels.alike, hparallels.intact, hparallels.relates, hparallels.unopened⟩⟩

namespace Mirrors

theorem knowledge? (hmirrors : store.Mirrors layered) (node : NodeId) :
    layered.knowledge? node = store.knowledge? node := by
  obtain ⟨ancestors, hlineage⟩ := layered.exists_lineage_current
  rw [Store.knowledge?, knowledgeAt?, hlineage, (hmirrors.shows hlineage node).visible?]

theorem value? (hmirrors : store.Mirrors layered) (node : NodeId) :
    layered.value? node = store.value? node := by
  rw [value?_eq, value?_eq, hmirrors.knowledge?]

/-- Before the first revision is opened a store mirrors itself. -/
theorem of_rooted (hrooted : store.Rooted) : store.Mirrors store where
  alike := ⟨rfl, fun _ ↦ rfl, rfl, rfl, rfl⟩
  intact := ⟨fun hlookup ↦ hrooted.contains_of_lookup hlookup⟩
  shows {ancestors} hlineage node := by
    rw [hrooted.lineage.1, hrooted.lineage.2, List.cons.injEq] at hlineage
    rw [← hlineage.2, hrooted.lineage.2, hrooted.history node]
    cases store.knowledge? node with
    | none => exact .empty _ _
    | some known => exact .own rfl rfl
  unopened {revision} hcontains node := by
    have hother : revision ≠ .root := by
      rintro rfl
      rw [hrooted.revisions] at hcontains
      cases hcontains
    rw [hrooted.history node, History.held?]
    cases store.knowledge? node with
    | none => rfl
    | some known =>
      rw [History.ofKnowledge, History.lookup_cons, if_neg hother]
      rfl

theorem withEnvs (hmirrors : store.Mirrors layered) (envs : Environments) :
    Mirrors { store with envs } { layered with envs } :=
  mirrors_iff_parallels.2 ((mirrors_iff_parallels.1 hmirrors).withEnvs envs)

theorem allot (hmirrors : store.Mirrors layered) (hlookup : store.lookup? address = none) :
    (store.allot address).Mirrors (layered.allot address) :=
  mirrors_iff_parallels.2 ((mirrors_iff_parallels.1 hmirrors).allot hlookup)

/-- A revision that is opened shows what the one before it has shown. -/
theorem spawn (hmirrors : store.Mirrors layered) : store.Mirrors layered.spawn.2 :=
  mirrors_iff_parallels.2 ((mirrors_iff_parallels.1 hmirrors).spawn fun node hheld ↦
    .opened (hmirrors.knowledge? node) hheld)

/-- A write that loses nothing in the mirror is accepted by the other store, and still mirrored. -/
theorem write (hmirrors : store.Mirrors layered) (hrooted : store.Rooted)
    (hblank : knowledge.isBlank = false) (hwrite : write address knowledge store = .ok node final)
    (hkept : ∀ {known}, store.knowledge? node = some known → final.knowledge? node = some known) :
    ∃ final', Store.write address knowledge layered = .ok node final' ∧ final.Mirrors final' := by
  obtain ⟨final', hwrite', hparallels⟩ :=
    (mirrors_iff_parallels.1 hmirrors).write hrooted hblank hwrite hkept
      (fun _ hcurrent _ _ hshows ↦ hshows.commit_new hcurrent hblank)
      (fun hcurrent hshows hmerge ↦ hshows.commit_known hcurrent hblank hmerge)
  exact ⟨final', hwrite', mirrors_iff_parallels.2 hparallels⟩

/-- An input is taken in under the same number. -/
theorem input (hmirrors : store.Mirrors layered) (hrooted : store.Rooted) {value : Value}
    (hinput : Store.input value store = .ok node final)
    (hkept : ∀ {known}, store.knowledge? node = some known → final.knowledge? node = some known) :
    ∃ final', Store.input value layered = .ok node final' ∧ final.Mirrors final' := by
  obtain ⟨address, middle, middle', hmiddle, -, hparallels, hleft, hright⟩ :=
    (mirrors_iff_parallels.1 hmirrors).input_eq value
  rw [hleft] at hinput
  rw [hright]
  refine (mirrors_iff_parallels.2 hparallels).write (hmiddle ▸ register_rooted hrooted _)
    (Knowledge.isBlank_of _ _) hinput fun hknown ↦ hkept ?_
  rwa [hmiddle, knowledge?_register] at hknown

end Mirrors

end Store

/-- The run of the same program at a later revision, where it shows the same. -/
def Companion.mirroring (program : Program) : Companion program := Twin.companion {
  tie machine machine' := machine.store.Mirrors machine'.store ∧
    machine'.memo = ⟨machine'.store.current, machine.memo.outcomes⟩
  patient := True
  alike htie := htie.1.alike
  value?_eq htie := htie.1.value?
  allot htie hlookup := ⟨htie.1.allot hlookup, htie.2⟩
  withEnvs htie _ := ⟨htie.1.withEnvs _, htie.2⟩
  write {machine machine' env expr explanation value node final} htie htidy hwrite hgrows := by
    obtain ⟨final', hwrite', hmirrors⟩ :=
      htie.1.write htidy.toRooted (Knowledge.isBlank_of _ _) hwrite hgrows.knowledge
    refine ⟨final', hwrite', hmirrors, ?_⟩
    rw [htie.2, Store.current, Store.current, Store.write_revisions hwrite'] }

theorem Companion.mirroring_remembers {program : Program} (settings : Settings)
    (evaluate : Evaluator) :
    (mirroring program).Remembers settings settings evaluate :=
  remembers_of_memo settings evaluate (fun htie ↦ htie.2) fun htie _ ↦ ⟨htie.1, rfl⟩

end Whence
