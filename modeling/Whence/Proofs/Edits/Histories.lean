import Whence.Proofs.Mirrors
import Whence.Proofs.WritePairs

/-!
# Histories after an edit

A revision that follows an edit may inherit what is no longer right.  As long as it has not written to
the node itself, a write of what is right takes effect: what the revision inherits is echoed if it is
the same, and replaced if it is not.  The one thing in the way is a value that the store takes to be the
same although it is another one.
-/

namespace Whence.History

variable {history final : History} {current : Revision} {ancestors : List Revision}
  {known : Option Knowledge} {held knowledge : Knowledge}

/-- What is right about a node and what its history says: nothing is known to be right, and the current
revision has not written; or it inherits what is right and has written only what agrees with it; or it
has an entry of its own for it. -/
inductive Bears (history : History) (current : Revision) (ancestors : List Revision) :
    Option Knowledge → Prop
  | unheld : history.held? current = none → Bears history current ancestors none
  | inherited {known : Knowledge} : history.visible? ancestors = some known →
    history.entries.lookup current = none →
    (∀ echo, history.echoes.lookup current = some echo → below echo known) →
    Bears history current ancestors (some known)
  | own {known : Knowledge} : history.entries.lookup current = some known →
    history.echoes.lookup current = none → Bears history current ancestors (some known)

theorem visible?_cons_of_unheld (hheld : history.held? current = none) :
    history.visible? (current :: ancestors) = history.visible? ancestors := by
  rw [visible?, List.findSome?_cons, (Option.or_eq_none_iff.1 hheld).1]
  rfl

/-- What a revision inherits is right unless somebody knows better. -/
theorem Shows.bears (hshows : history.Shows current ancestors known) :
    history.Bears current ancestors known := by
  cases hshows with
  | inherited hancestors hentry hechoes => exact .inherited hancestors hentry hechoes
  | own _ hecho =>
    cases hentry : history.entries.lookup current with
    | some known => exact .own hentry hecho
    | none => exact .unheld (Option.or_eq_none_iff.2 ⟨hentry, hecho⟩)

namespace Bears

theorem visible? (hbears : history.Bears current ancestors (some held)) :
    history.visible? (current :: ancestors) = some held := by
  cases hbears with
  | inherited hancestors hentry _ =>
    rw [History.visible?, List.findSome?_cons, hentry]
    exact hancestors
  | own hentry _ => exact visible?_of_lookup hentry

/-- A revision that has not written may take what it inherits to be right. -/
theorem of_visible? (hbears : history.Bears current ancestors known) :
    history.Bears current ancestors (history.visible? (current :: ancestors)) := by
  cases known with
  | some held => rwa [hbears.visible?]
  | none =>
    cases hbears with
    | unheld hheld => exact (Shows.opened (visible?_cons_of_unheld hheld).symm hheld).bears

theorem held?_of_none (hbears : history.Bears current ancestors none) :
    history.held? current = none := by
  cases hbears with
  | unheld hheld => exact hheld

/-- A revision that was just opened bears what the one it was opened on has shown. -/
theorem opened {lineage : List Revision} (hheld : history.held? current = none)
    (hvisible : ∀ {held}, known = some held → history.visible? lineage = some held) :
    history.Bears current lineage known := by
  cases known with
  | none => exact .unheld hheld
  | some held => exact (Shows.opened (hvisible rfl) hheld).bears

/-- What is right takes the place of what was there, unless it counts as the same. -/
theorem commit_new (hbears : history.Bears current ancestors none)
    (hblank : knowledge.isBlank = false)
    (hdistinct : ∀ {old merged}, history.visible? (current :: ancestors) = some old →
      merge old knowledge = .ok merged → old = knowledge) :
    ∃ final, history.commit (current :: ancestors) current knowledge = .ok final ∧
      final.Bears current ancestors (some knowledge) := by
  have hunheld := hbears.held?_of_none
  obtain ⟨hentry, hecho⟩ := Option.or_eq_none_iff.1 hunheld
  have hcommit : history.commit (current :: ancestors) current knowledge =
      .ok (history.record (current :: ancestors) current knowledge) := by
    rw [commit_of_none hblank hentry, written, hecho]
    rfl
  have hentered : (history.enter current knowledge).Bears current ancestors (some knowledge) :=
    .own (lookup_enter_self hentry) ((lookup_dropEcho history current current).trans (if_pos rfl))
  refine ⟨_, hcommit, ?_⟩
  rw [record]
  cases hold : history.visible? (current :: ancestors) with
  | none => exact hentered
  | some old =>
    cases hmerge : merge old knowledge with
    | error conflict => simpa only [hmerge] using hentered
    | ok merged =>
      obtain rfl := hdistinct hold hmerge
      obtain ⟨merged', hmerge', hsame⟩ := Knowledge.below_iff_carries.1 (below_refl old)
      cases hmerge.symm.trans hmerge'
      simp only [hmerge, if_pos hsame]
      refine .inherited ((visible?_cons_of_unheld hunheld).symm.trans hold) hentry fun echo hecho ↦ ?_
      rw [lookup_echo_self] at hecho
      cases hecho
      exact below_refl old

/-- What is there already is only echoed, or found in the entry of the current revision. -/
theorem commit_known (hbears : history.Bears current ancestors (some held))
    (hcurrent : current ∉ ancestors) (hblank : knowledge.isBlank = false)
    (hmerge : merge held knowledge = .ok held) :
    ∃ final, history.commit (current :: ancestors) current knowledge = .ok final ∧
      final.Bears current ancestors (some held) := by
  cases hbears with
  | inherited hancestors hentry hechoes =>
    obtain ⟨final, hcommit, hshows⟩ :=
      (Shows.inherited hancestors hentry hechoes).commit_known hcurrent hblank hmerge
    exact ⟨final, hcommit, hshows.bears⟩
  | own hentry hecho =>
    refine ⟨history.amend current held, ?_, .own (lookup_amend_self hentry) hecho⟩
    rw [commit_of_own hblank hentry, hmerge]
    rfl

/-- Whatever is written, what the revision sees then may be taken to be right. -/
theorem commit (hbears : history.Bears current ancestors (history.visible? (current :: ancestors)))
    (hcommits : Commits history (current :: ancestors) current knowledge final) :
    final.Bears current ancestors (final.visible? (current :: ancestors)) := by
  have hown {final : History} {held : Knowledge}
      (hentry : final.entries.lookup current = some held) (hecho : final.echoes.lookup current = none) :
      final.Bears current ancestors (final.visible? (current :: ancestors)) :=
    visible?_of_lookup hentry ▸ .own hentry hecho
  have hentered (hnone : history.entries.lookup current = none) (held : Knowledge) :
      (history.enter current held).Bears current ancestors
        ((history.enter current held).visible? (current :: ancestors)) :=
    hown (lookup_enter_self hnone) ((lookup_dropEcho history current current).trans (if_pos rfl))
  cases hcommits with
  | blank _ => exact hbears
  | @amend own merged hentry _ =>
    refine hown (lookup_amend_self hentry) ?_
    rw [visible?_of_lookup hentry] at hbears
    cases hbears with
    | inherited _ hnone _ => cases hnone.symm.trans hentry
    | own _ hecho => exact hecho
  | @record written _ hnone _ hrecords =>
    cases hrecords with
    | first _ => exact hentered hnone _
    | extend _ _ => exact hentered hnone _
    | replace _ _ => exact hentered hnone _
    | @echo inherited merged hvisible hmerge hsame =>
      have hancestors : history.visible? ancestors = some inherited := by
        rwa [History.visible?, List.findSome?_cons, hnone] at hvisible
      have hvisible' : (history.echo current written).visible? (current :: ancestors) =
          some inherited := hvisible
      rw [hvisible']
      refine .inherited hancestors hnone fun echo hecho ↦ ?_
      rw [lookup_echo_self] at hecho
      cases hecho
      exact Knowledge.below_iff_carries.2 ⟨merged, hmerge, hsame⟩

end Bears

end Whence.History
