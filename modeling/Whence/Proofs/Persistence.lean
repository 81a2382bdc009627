import Whence.Proofs.Ordering
import Whence.Proofs.Reachability

/-!
# What becomes of accepted writes

A revision never forgets what it has written: its entry, or its echo as long as it has no entry,
only grows.  What it sees of its own writes is another matter.  An echo is not looked at when the
revision is read, so a write that left only an echo is lost from sight if a nearer ancestor gets a
first entry that stands against what it inherits.
-/

namespace Whence

namespace History

variable {history final : History} {lineage : List Revision} {revision other : Revision}
  {knowledge written : Knowledge}

/-- What a revision has written altogether: its entry or, if it has none, its echo. -/
def held? (history : History) (revision : Revision) : Option Knowledge :=
  (history.entries.lookup revision).or (history.echoes.lookup revision)

theorem mem_versions_of_lookup (hlookup : history.entries.lookup revision = some knowledge) :
    revision ∈ history.versions := by
  apply Classical.byContradiction
  intro hnone
  rw [← lookup_eq_none_iff, hlookup] at hnone
  cases hnone

/-- A revision with an entry sees what it has written. -/
theorem visible?_cons_of_entry (hentry : revision ∈ history.versions) (ancestors : List Revision) :
    history.visible? (revision :: ancestors) = history.held? revision := by
  rw [visible?, List.findSome?_cons, held?]
  cases hlookup : history.entries.lookup revision with
  | none => exact absurd hentry (lookup_eq_none_iff.1 hlookup)
  | some knowledge => rfl

/-- Entries, and what each revision has written, only grow. -/
structure Later (history final : History) : Prop where
  entries : ∀ {revision knowledge}, history.entries.lookup revision = some knowledge →
    ∃ later, final.entries.lookup revision = some later ∧ below knowledge later
  held : ∀ {revision knowledge}, history.held? revision = some knowledge →
    ∃ later, final.held? revision = some later ∧ below knowledge later

namespace Later

theorem refl (history : History) : history.Later history :=
  ⟨fun hlookup ↦ ⟨_, hlookup, below_refl _⟩, fun hheld ↦ ⟨_, hheld, below_refl _⟩⟩

theorem trans {middle : History} (hfirst : history.Later middle) (hsecond : middle.Later final) :
    history.Later final where
  entries hlookup := by
    obtain ⟨later, hlater, hbelow⟩ := hfirst.entries hlookup
    obtain ⟨last, hlast, hbelow'⟩ := hsecond.entries hlater
    exact ⟨last, hlast, below_trans hbelow hbelow'⟩
  held hheld := by
    obtain ⟨later, hlater, hbelow⟩ := hfirst.held hheld
    obtain ⟨last, hlast, hbelow'⟩ := hsecond.held hlater
    exact ⟨last, hlast, below_trans hbelow hbelow'⟩

theorem versions (hlater : history.Later final) (hversion : revision ∈ history.versions) :
    revision ∈ final.versions := by
  cases hlookup : history.entries.lookup revision with
  | none => exact absurd hversion (lookup_eq_none_iff.1 hlookup)
  | some knowledge =>
    obtain ⟨later, hlater, -⟩ := hlater.entries hlookup
    exact mem_versions_of_lookup hlater

/-- What is visible grows as well, unless a revision of the lineage gets its first entry. -/
theorem visible? (hlater : history.Later final)
    (hnone : ∀ revision ∈ lineage, revision ∈ final.versions → revision ∈ history.versions)
    (hvisible : history.visible? lineage = some knowledge) :
    ∃ later, final.visible? lineage = some later ∧ below knowledge later := by
  induction lineage with
  | nil => cases hvisible
  | cons first rest ih =>
    simp only [History.visible?, List.findSome?_cons] at hvisible ⊢
    cases hlookup : history.entries.lookup first with
    | some held =>
      rw [hlookup] at hvisible
      cases hvisible
      obtain ⟨later, hfirst, hbelow⟩ := hlater.entries hlookup
      exact ⟨later, by rw [hfirst], hbelow⟩
    | none =>
      have hfirst : final.entries.lookup first = none := lookup_eq_none_iff.2 fun hversion ↦
        lookup_eq_none_iff.1 hlookup (hnone first List.mem_cons_self hversion)
      rw [hlookup] at hvisible
      rw [hfirst]
      exact ih (fun revision hmem ↦ hnone revision (List.mem_cons_of_mem _ hmem)) hvisible

end Later

/-- What a revision without an entry has written carries the new write and the earlier ones. -/
theorem below_written (hwritten : history.written revision knowledge = .ok written) :
    below knowledge written ∧
      ∀ {earlier}, history.echoes.lookup revision = some earlier → below earlier written := by
  unfold History.written at hwritten
  split at hwritten
  case h_1 earlier hecho =>
    refine ⟨below_right hwritten, fun hother ↦ ?_⟩
    rw [hecho] at hother
    cases hother
    exact below_left hwritten
  case h_2 hecho =>
    cases hwritten
    refine ⟨below_refl _, fun hother ↦ ?_⟩
    rw [hecho] at hother
    cases hother

theorem held?_enter_self (hnone : history.entries.lookup revision = none) (knowledge : Knowledge) :
    (history.enter revision knowledge).held? revision = some knowledge := by
  simp [held?, lookup_enter, hnone]

theorem held?_enter_of_ne (hother : other ≠ revision) (knowledge : Knowledge) :
    (history.enter revision knowledge).held? other = history.held? other := by
  simp only [held?, lookup_enter, if_neg hother, Option.or_none]
  rw [enter, lookup_dropEcho, if_neg hother]

theorem held?_echo (history : History) (revision other : Revision) (knowledge : Knowledge) :
    (history.echo revision knowledge).held? other = (history.entries.lookup other).or
      (if other = revision then some knowledge else history.echoes.lookup other) := by
  rw [held?, echo, lookup_cons, lookup_dropEcho]
  by_cases hother : other = revision <;> simp [hother]

/-- Recording is seen in what the revision has written, and only there. -/
theorem Records.held? (hnone : history.entries.lookup revision = none)
    (hrecords : Records history lineage revision written final) :
    (∃ held, final.held? revision = some held ∧ below written held) ∧
      ∀ {other}, other ≠ revision → final.held? other = history.held? other := by
  cases hrecords with
  | first _ | replace _ _ =>
    exact ⟨⟨_, held?_enter_self hnone _, below_refl _⟩, fun hother ↦ held?_enter_of_ne hother _⟩
  | extend _ hmerge =>
    exact ⟨⟨_, held?_enter_self hnone _, below_right hmerge⟩, fun hother ↦ held?_enter_of_ne hother _⟩
  | echo _ _ _ =>
    refine ⟨⟨written, ?_, below_refl _⟩, fun {other} hother ↦ ?_⟩
    · simp [held?_echo, hnone]
    · rw [held?_echo, if_neg hother, History.held?]

/-- An accepted write is kept by its revision. -/
theorem Commits.held?_self (hcommits : Commits history lineage revision knowledge final)
    (hblank : knowledge.isBlank = false) :
    ∃ held, final.held? revision = some held ∧ below knowledge held := by
  cases hcommits with
  | blank hblank' =>
    rw [hblank] at hblank'
    cases hblank'
  | amend hown hmerge =>
    exact ⟨_, by simp [History.held?, lookup_amend, hown], below_right hmerge⟩
  | record hnone hwritten hrecords =>
    obtain ⟨⟨held, hheld, hbelow⟩, -⟩ := hrecords.held? hnone
    exact ⟨held, hheld, below_trans (below_written hwritten).1 hbelow⟩

/-- A write loses nothing. -/
theorem Commits.later (hcommits : Commits history lineage revision knowledge final) :
    history.Later final := by
  cases hcommits with
  | blank _ => exact .refl history
  | @amend own merged hown hmerge =>
    have hentry : ∀ {other held}, history.entries.lookup other = some held →
        ∃ later, (history.amend revision merged).entries.lookup other = some later ∧
          below held later := by
      intro other held hlookup
      rw [lookup_amend]
      split
      case isTrue heq =>
        subst heq
        rw [hown] at hlookup
        cases hlookup
        exact ⟨merged, by simp [hown], below_left hmerge⟩
      case isFalse => exact ⟨held, hlookup, below_refl held⟩
    refine ⟨hentry, fun {other held} hheld ↦ ?_⟩
    rw [held?] at hheld ⊢
    cases hlookup : history.entries.lookup other with
    | some held' =>
      rw [hlookup] at hheld
      cases hheld
      obtain ⟨later, hlater, hbelow⟩ := hentry hlookup
      exact ⟨later, by rw [hlater, Option.some_or], hbelow⟩
    | none =>
      have hnone : (history.amend revision merged).entries.lookup other = none := by
        simp [lookup_amend, hlookup]
      rw [hlookup, Option.none_or] at hheld
      exact ⟨held, by rw [hnone, Option.none_or]; exact hheld, below_refl held⟩
  | @record written _ hnone hwritten hrecords =>
    obtain ⟨⟨last, hlast, hbelow⟩, hothers⟩ := hrecords.held? hnone
    refine ⟨fun {other held} hlookup ↦ ⟨held, ?_, below_refl held⟩, fun {other held} hheld ↦ ?_⟩
    · have hne : other ≠ revision := by
        rintro rfl
        rw [hnone] at hlookup
        cases hlookup
      rw [(Commits.record hnone hwritten hrecords).lookup_eq hne, hlookup]
    · by_cases hother : other = revision
      · subst hother
        rw [held?, hnone, Option.none_or] at hheld
        exact ⟨last, hlast, below_trans ((below_written hwritten).2 hheld) hbelow⟩
      · exact ⟨held, by rw [hothers hother, hheld], below_refl held⟩

/-- A write that gives its revision no entry is carried by what the revision sees. -/
theorem Commits.visible?_of_echo (hcommits : Commits history lineage revision knowledge final)
    (hblank : knowledge.isBlank = false) (hnone : revision ∉ final.versions) :
    ∃ held, final.visible? lineage = some held ∧ below knowledge held := by
  rw [← lookup_eq_none_iff] at hnone
  cases hcommits with
  | blank hblank' =>
    rw [hblank] at hblank'
    cases hblank'
  | amend hown _ => simp [lookup_amend, hown] at hnone
  | record _ hwritten hrecords =>
    cases hrecords with
    | first _ | extend _ _ | replace _ _ => simp [lookup_enter] at hnone
    | @echo inherited merged hvisible hmerge hsame =>
      have hinherited : below merged inherited := (Knowledge.same_iff.1 hsame).1
      exact ⟨inherited, hvisible, below_trans (below_written hwritten).1
        (below_trans (below_right hmerge) hinherited)⟩

end History

namespace Store

variable {store final : Store} {node : NodeId} {revision : Revision} {address : Address}
  {knowledge : Knowledge}

/-! ## Runs -/

/-- The histories only grow, and the lineages of the revisions stay as they are. -/
structure Outlives (final store : Store) : Prop where
  history : ∀ node, (store.node node).history.Later (final.node node).history
  lineage : ∀ {revision}, store.revisions.contains revision = true →
    final.revisions.contains revision = true ∧
      final.revisions.lineage revision = store.revisions.lineage revision

theorem Outlives.refl (store : Store) : store.Outlives store :=
  ⟨fun _ ↦ .refl _, fun hrevision ↦ ⟨hrevision, rfl⟩⟩

theorem Outlives.trans {middle : Store} (hsecond : final.Outlives middle)
    (hfirst : middle.Outlives store) : final.Outlives store where
  history node := (hfirst.history node).trans (hsecond.history node)
  lineage hrevision := by
    obtain ⟨hcontains, hlineage⟩ := hfirst.lineage hrevision
    obtain ⟨hcontains', hlineage'⟩ := hsecond.lineage hcontains
    exact ⟨hcontains', hlineage'.trans hlineage⟩

theorem Step.outlives (hstep : Step store final) : final.Outlives store where
  history node := by
    obtain hsame | ⟨knowledge, hcommits⟩ := hstep.history node
    · rw [hsame]
      exact .refl _
    · exact hcommits.later
  lineage hrevision := by
    rw [hstep.revisions_eq]
    exact ⟨hrevision, rfl⟩

theorem Move.outlives (hmove : store.Move final) : final.Outlives store := by
  cases hmove with
  | steps hsteps =>
    induction hsteps with
    | refl => exact .refl store
    | tail _ hstep ih => exact hstep.outlives.trans ih
  | spawn =>
    exact ⟨fun _ ↦ .refl _, fun hrevision ↦
      ⟨Revisions.contains_spawn hrevision, Revisions.lineage_spawn hrevision⟩⟩
  | checkout hcheckout =>
    obtain ⟨_, rfl⟩ := Revisions.checkout?_eq_some hcheckout
    exact ⟨fun _ ↦ .refl _, fun hrevision ↦ ⟨hrevision, rfl⟩⟩

theorem after_outlives (store : Store) (operations : List Operation) :
    (store.after operations).Outlives store := by
  induction operations generalizing store with
  | nil => exact .refl store
  | cons operation operations ih => exact (ih _).trans (store.run_move operation).outlives

/-- An accepted write stays in sight of its revision, whatever operations follow, as long as the
revision has an entry of its own for the node or no other revision of its lineage gets a first one. -/
theorem write_persists (hreachable : store.Reachable) (hblank : knowledge.isBlank = false)
    (hwrite : write address knowledge store = .ok node final) (later : List Operation)
    (hkept : store.current ∈ (final.after later).versions node ∨
      ∀ revision ∈ store.revisions.lineage store.current,
        revision ∈ (final.after later).versions node → revision ∈ final.versions node) :
    ∃ held merged, (final.after later).knowledgeAt? node store.current = some held ∧
      merge held knowledge = .ok merged ∧ merged.same held = true := by
  have hintact := hreachable.intact
  have hcommits := hintact.write_commits hwrite
  have houtlives := after_outlives final later
  have hhistory := houtlives.history node
  obtain ⟨held, hheld, hbelow⟩ : ∃ held, ((final.after later).node node).history.visible?
      (store.revisions.lineage store.current) = some held ∧ below knowledge held := by
    by_cases hentry : store.current ∈ (final.after later).versions node
    · -- The entry of the revision itself is the first one, and it holds all that was written.
      obtain ⟨written, hwritten, hbelow⟩ := hcommits.held?_self hblank
      obtain ⟨held, hheld, hbelow'⟩ := hhistory.held hwritten
      obtain ⟨ancestors, hlineage⟩ := store.exists_lineage_current
      rw [hlineage, History.visible?_cons_of_entry hentry]
      exact ⟨held, hheld, below_trans hbelow hbelow'⟩
    · -- The revision sees what it inherits, which carried the write and has only grown.
      obtain ⟨inherited, hinherited, hbelow⟩ :=
        hcommits.visible?_of_echo hblank fun hversion ↦ hentry (hhistory.versions hversion)
      obtain ⟨held, hheld, hbelow'⟩ := hhistory.visible? (hkept.resolve_left hentry) hinherited
      exact ⟨held, hheld, below_trans hbelow hbelow'⟩
  obtain ⟨merged, hmerge, hsame⟩ := Knowledge.below_iff_carries.1 hbelow
  refine ⟨held, merged, ?_, hmerge, hsame⟩
  have hcurrent : final.revisions.contains store.current = true := by
    rw [write_revisions hwrite]
    exact store.revisions.contains_current
  rw [knowledgeAt?, (houtlives.lineage hcurrent).2, write_revisions hwrite, hheld]

/-! ## A write that is kept and one that is lost -/

/-- Two revisions on top of the root, the second of which is current. -/
def twoOnRoot : Revisions := (({} : Revisions).spawn).2.spawn.2

theorem after_oneInput (value : Value) : empty.after [.input value, .spawn, .spawn] =
    oneInput twoOnRoot ⟨[(.root, .of .given value)], []⟩ := by
  rw [after, List.foldl_cons, run_input_empty]
  rfl

/-- What the root has taken in is written again two revisions later, and replaced after that. -/
theorem write_persists_oneInput : ∃ store final held merged, store.Reachable ∧
    write (.input ⟨0⟩) (.of .given (.text "old")) store = .ok ⟨0⟩ final ∧
    (final.after [.spawn, .update ⟨0⟩ (.text "new")]).knowledgeAt? ⟨0⟩ store.current = some held ∧
    merge held (.of .given (.text "old")) = .ok merged ∧ merged.same held = true := by
  let old : Knowledge := .of .given (.text "old")
  let new : Knowledge := .of .given (.text "new")
  have hwrite : write (.input ⟨0⟩) old (oneInput twoOnRoot ⟨[(.root, old)], []⟩) =
      .ok ⟨0⟩ (oneInput twoOnRoot ⟨[(.root, old)], [(⟨2⟩, old)]⟩) := write_oneInput twoOnRoot rfl
  have hlater : (oneInput twoOnRoot ⟨[(.root, old)], [(⟨2⟩, old)]⟩).after
      [.spawn, .update ⟨0⟩ (.text "new")] =
        oneInput twoOnRoot.spawn.2 ⟨[(.root, old), (⟨3⟩, new)], [(⟨2⟩, old)]⟩ :=
    run_update_oneInput twoOnRoot.spawn.2 rfl
  have hreachable : (oneInput twoOnRoot ⟨[(.root, old)], []⟩).Reachable :=
    ⟨[.input (.text "old"), .spawn, .spawn], after_oneInput (.text "old")⟩
  have hkept : ∀ revision ∈ twoOnRoot.lineage twoOnRoot.current,
      revision ∈ (History.mk [(.root, old), (⟨3⟩, new)] [(⟨2⟩, old)]).versions →
        revision ∈ (History.mk [(.root, old)] [(⟨2⟩, old)]).versions := by decide
  obtain ⟨held, merged, hheld, hmerge, hsame⟩ := write_persists hreachable rfl hwrite
    [.spawn, .update ⟨0⟩ (.text "new")] (.inr (by rw [hlater]; exact hkept))
  exact ⟨_, _, held, merged, hreachable, hwrite, hheld, hmerge, hsame⟩

/-- A write that left only an echo is lost from sight: the revision in between gets its first entry
afterwards. -/
theorem write_lost : ∃ store final, store.Reachable ∧
    write (.input ⟨0⟩) (.of .given (.text "old")) store = .ok ⟨0⟩ final ∧
    ¬∃ held merged, (final.after [.checkout ⟨1⟩, .update ⟨0⟩ (.text "new")]).knowledgeAt? ⟨0⟩
        store.current = some held ∧
      merge held (.of .given (.text "old")) = .ok merged ∧ merged.same held = true := by
  let old : Knowledge := .of .given (.text "old")
  let new : Knowledge := .of .given (.text "new")
  have hlater : (oneInput twoOnRoot ⟨[(.root, old)], [(⟨2⟩, old)]⟩).after
      [.checkout ⟨1⟩, .update ⟨0⟩ (.text "new")] =
        oneInput { twoOnRoot with current := ⟨1⟩, current_lt := by decide }
          ⟨[(.root, old), (⟨1⟩, new)], [(⟨2⟩, old)]⟩ :=
    run_update_oneInput { twoOnRoot with current := ⟨1⟩, current_lt := by decide } rfl
  refine ⟨oneInput twoOnRoot ⟨[(.root, old)], []⟩,
    oneInput twoOnRoot ⟨[(.root, old)], [(⟨2⟩, old)]⟩,
    ⟨[.input (.text "old"), .spawn, .spawn], after_oneInput (.text "old")⟩,
    write_oneInput twoOnRoot rfl, ?_⟩
  rw [hlater]
  rintro ⟨held, merged, hheld, hmerge, -⟩
  have hnew : held = new := (Option.some.inj hheld).symm
  subst hnew
  have hconflict : merge new old = .error (.leaf (.text "new") (.text "old")) := rfl
  rw [hconflict] at hmerge
  cases hmerge

end Store

end Whence
