import Whence.Store.History

/-!
# What a write does to the history of a node

A write at a revision touches what that revision holds and nothing else: it amends the entry of the
revision, gives it its first entry or leaves an echo.  What another revision sees can change only if
the writing revision is the nearest of its lineage that has an entry.
-/

namespace Whence

namespace History

variable {history final : History} {lineage : List Revision} {revision other : Revision}
  {knowledge : Knowledge}

theorem lookup_cons (entry : Revision × Knowledge) (entries : List (Revision × Knowledge))
    (revision : Revision) :
    (entry :: entries).lookup revision =
      if revision = entry.1 then some entry.2 else entries.lookup revision := by
  rw [List.lookup_cons]
  by_cases hsame : revision = entry.1
  · simp [hsame]
  · rw [beq_eq_false_iff_ne.2 hsame, if_neg hsame]

theorem lookup_amend (history : History) (revision other : Revision) (knowledge : Knowledge) :
    (history.amend revision knowledge).entries.lookup other =
      if other = revision then (history.entries.lookup other).map fun _ ↦ knowledge
      else history.entries.lookup other := by
  simp only [amend]
  induction history.entries with
  | nil => simp
  | cons entry entries ih =>
    rw [List.map_cons, lookup_cons, lookup_cons, ih]
    by_cases hsame : entry.1 = revision
    · by_cases hother : other = revision <;> simp [hsame, hother]
    · by_cases hentry : other = entry.1 <;> simp [hsame, hentry]

theorem lookup_enter (history : History) (revision other : Revision) (knowledge : Knowledge) :
    (history.enter revision knowledge).entries.lookup other =
      (history.entries.lookup other).or (if other = revision then some knowledge else none) := by
  rw [enter, List.lookup_append, lookup_cons, List.lookup_nil]

theorem lookup_dropEcho (history : History) (revision other : Revision) :
    (history.dropEcho revision).lookup other =
      if other = revision then none else history.echoes.lookup other := by
  rw [dropEcho]
  induction history.echoes with
  | nil => simp
  | cons echo echoes ih =>
    rw [List.filter_cons, lookup_cons]
    by_cases hsame : echo.1 = revision
    · rw [if_neg (by simp [hsame]), ih]
      by_cases hother : other = revision <;> simp [hsame, hother]
    · have hkept : (echo.1 != revision) = true := bne_iff_ne.2 hsame
      rw [if_pos hkept, lookup_cons, ih]
      by_cases hecho : other = echo.1 <;> simp [hsame, hecho]

theorem versions_amend (history : History) (revision : Revision) (knowledge : Knowledge) :
    (history.amend revision knowledge).versions = history.versions := by
  rw [versions, versions, amend, List.map_map]
  refine List.map_congr_left fun entry _ ↦ ?_
  rw [Function.comp_apply]
  split
  case isTrue hsame => exact (eq_of_beq hsame).symm
  case isFalse => rfl

theorem versions_enter (history : History) (revision : Revision) (knowledge : Knowledge) :
    (history.enter revision knowledge).versions = history.versions ++ [revision] := by
  rw [versions, versions, enter, List.map_append]
  rfl

/-- What recording does for a revision without an entry: it leaves an echo of what the revision
sees, or gives the revision an entry that extends what it sees or stands against it. -/
inductive Records (history : History) (lineage : List Revision) (revision : Revision)
    (written : Knowledge) : History → Prop
  | first : history.visible? lineage = none →
    Records history lineage revision written (history.enter revision written)
  | echo {inherited merged : Knowledge} : history.visible? lineage = some inherited →
    merge inherited written = .ok merged → merged.same inherited = true →
    Records history lineage revision written (history.echo revision written)
  | extend {inherited merged : Knowledge} : history.visible? lineage = some inherited →
    merge inherited written = .ok merged →
    Records history lineage revision written (history.enter revision merged)
  | replace {inherited : Knowledge} {conflict : Conflict} :
    history.visible? lineage = some inherited → merge inherited written = .error conflict →
    Records history lineage revision written (history.enter revision written)

theorem record_spec (history : History) (lineage : List Revision) (revision : Revision)
    (written : Knowledge) :
    Records history lineage revision written (history.record lineage revision written) := by
  unfold record
  split
  case h_1 hvisible => exact .first hvisible
  case h_2 inherited hvisible =>
    split
    case h_1 merged hmerge =>
      split
      case isTrue hsame => exact .echo hvisible hmerge hsame
      case isFalse => exact .extend hvisible hmerge
    case h_2 conflict hmerge => exact .replace hvisible hmerge

/-- What an accepted write does. -/
inductive Commits (history : History) (lineage : List Revision) (revision : Revision)
    (knowledge : Knowledge) : History → Prop
  | blank : knowledge.isBlank = true → Commits history lineage revision knowledge history
  | amend {own merged : Knowledge} : history.entries.lookup revision = some own →
    merge own knowledge = .ok merged →
    Commits history lineage revision knowledge (history.amend revision merged)
  | record {written : Knowledge} {final : History} : history.entries.lookup revision = none →
    history.written revision knowledge = .ok written →
    Records history lineage revision written final →
    Commits history lineage revision knowledge final

theorem commit_spec (hcommit : history.commit lineage revision knowledge = .ok final) :
    Commits history lineage revision knowledge final := by
  unfold commit at hcommit
  split at hcommit
  case isTrue hblank =>
    cases hcommit
    exact .blank hblank
  case isFalse =>
    split at hcommit
    case h_1 own hown =>
      cases hmerge : merge own knowledge with
      | ok merged =>
        rw [hmerge] at hcommit
        cases hcommit
        exact .amend hown hmerge
      | error conflict =>
        rw [hmerge] at hcommit
        cases hcommit
    case h_2 hown =>
      cases hwritten : history.written revision knowledge with
      | ok written =>
        rw [hwritten] at hcommit
        cases hcommit
        exact .record hown hwritten (record_spec history lineage revision written)
      | error conflict =>
        rw [hwritten] at hcommit
        cases hcommit

/-- A write leaves the entries of all other revisions as they are. -/
theorem Commits.lookup_eq (hcommits : Commits history lineage revision knowledge final)
    (hother : other ≠ revision) : final.entries.lookup other = history.entries.lookup other := by
  cases hcommits with
  | blank => rfl
  | amend _ _ => rw [lookup_amend, if_neg hother]
  | record _ _ hrecords =>
    cases hrecords with
    | first _ => simp [lookup_enter, hother]
    | echo _ _ _ => rfl
    | extend _ _ => simp [lookup_enter, hother]
    | replace _ _ => simp [lookup_enter, hother]

theorem lookup_eq_none_iff : history.entries.lookup revision = none ↔ revision ∉ history.versions := by
  simp only [List.lookup_eq_none_iff, versions, List.mem_map, not_exists, not_and, bne_iff_ne]
  exact forall₂_congr fun _ _ ↦ ⟨Ne.symm, Ne.symm⟩

/-- What is visible depends on the entries of the lineage up to the first one. -/
theorem visible?_congr (hentries : ∀ revision ∈ lineage,
      (∀ nearer ∈ lineage.takeWhile (· ≠ revision), nearer ∉ history.versions) →
      final.entries.lookup revision = history.entries.lookup revision) :
    final.visible? lineage = history.visible? lineage := by
  induction lineage with
  | nil => rfl
  | cons first rest ih =>
    have hfirst : final.entries.lookup first = history.entries.lookup first :=
      hentries first List.mem_cons_self (by simp)
    simp only [visible?, List.findSome?_cons, hfirst]
    cases hlookup : history.entries.lookup first with
    | some knowledge => rfl
    | none =>
      refine ih fun revision hrevision hnearer ↦ hentries revision
        (List.mem_cons_of_mem _ hrevision) fun nearer hmem ↦ ?_
      rw [List.takeWhile_cons] at hmem
      split at hmem
      · obtain rfl | hmem := List.mem_cons.1 hmem
        · exact lookup_eq_none_iff.1 hlookup
        · exact hnearer nearer hmem
      · cases hmem

/-- A write is not seen along a lineage that does not pass through the writing revision, or that
meets another entry before. -/
theorem Commits.visible?_eq (hcommits : Commits history lineage revision knowledge final)
    {lineage : List Revision} (hhidden : revision ∈ lineage →
      ∃ nearer ∈ lineage.takeWhile (· ≠ revision), nearer ∈ history.versions) :
    final.visible? lineage = history.visible? lineage := by
  refine visible?_congr fun other hother hnearer ↦ hcommits.lookup_eq ?_
  rintro rfl
  obtain ⟨nearer, hmem, hversion⟩ := hhidden hother
  exact hnearer nearer hmem hversion

end History

end Whence
