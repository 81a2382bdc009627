import Whence.Proofs.Operations

/-!
# Closing recursive groups in company

Closing a group makes the closures of all its definitions; where this has been done before, it
changes nothing.  A function literal that is met in the environment that closes its group is
therefore known as a member of it.
-/

namespace Whence

variable {program : Program} {companion : Companion program} {store : Store} {env : EnvId}
  {expr : ExprId} {scope : Scope}

theorem HoldsClosures.mem {entries : List GroupEntry} {members : List Member}
    (hholds : HoldsClosures store scope env entries members) {entry : GroupEntry}
    (hentry : entry ∈ entries) : ∃ node, HoldsClosure store scope env entry.function node := by
  induction hholds with
  | nil => cases hentry
  | cons hfirst _ ih =>
    cases hentry with
    | head => exact ⟨_, hfirst⟩
    | tail _ hentry => exact ih hentry

/-- The closures of a group whose environment exists are known. -/
theorem Sound.members (hsound : Sound program store) {function : ExprId}
    (hmember : IsMember program store env function scope) :
    ∃ members, Members program store scope env members := by
  obtain ⟨name, position, rest, hhead⟩ := hmember.head
  obtain ⟨inner, members, hmembers⟩ :=
    hsound.closed (hhead ▸ List.mem_cons_self : (name, Binding.recursive scope position) ∈ _)
  cases hmembers.1.unique hsound.envs hmember.1
  exact ⟨members, hmembers⟩

/-- A function literal that is not known is not a member of a group. -/
theorem Sound.scopeOf_none (hsound : Sound program store)
    (hunknown : ∀ node, store.lookup? (.evaluation env expr) = some node →
      store.knowledge? node = none) : ScopeOf program store env expr none := by
  intro scope hmember
  obtain ⟨members, hmembers⟩ := hsound.members hmember
  obtain ⟨-, entry, hentry, rfl⟩ := hmember
  obtain ⟨node, hholds⟩ := hmembers.2.mem hentry
  have hnone := hunknown node hholds.lookup
  rw [hholds.knowledge] at hnone
  cases hnone

/-- Writing the closure of a function literal. -/
theorem Tied.writeClosure {fail : Error → Store → Prop} (hsound : Sound program store)
    (henv : store.envs.Contains env) {demand : DemandId}
    (hliteral : program.expr expr = .function demand) :
    Tied companion
      (Machine.perform (Store.write (.evaluation env expr)
        (.of .given (.closure ⟨env, expr, none⟩))))
      (Machine.perform (Store.write (.evaluation env expr)
        (.of .given (.closure ⟨env, expr, none⟩)))) store
      (fun node final ↦ ∃ scope, ScopeOf program store env expr scope ∧
        Written store env expr .given (.closure ⟨env, expr, scope⟩) node final) fail := by
  by_cases hknown : ∃ node knowledge, store.lookup? (.evaluation env expr) = some node ∧
      store.knowledge? node = some knowledge
  · obtain ⟨node, knowledge, hlookup, hknown⟩ := hknown
    obtain ⟨explanation, value, rfl⟩ := hsound.full hknown
    have hrule := hsound.rule hlookup hknown
    rw [hliteral] at hrule
    cases hrule with
    | @function _ scope hscope =>
      refine (Does.rewrite hlookup hknown (Knowledge.merge_closure_without_scope _ _ _)).tied ?_
      rintro node' final - - - ⟨rfl, rfl⟩
      exact ⟨hsound, scope, hscope, hlookup, hknown, rfl, fun _ ↦ rfl, .refl _ _⟩
  · have hscope : ScopeOf program store env expr none := by
      refine hsound.scopeOf_none fun node hlookup ↦ ?_
      cases hnone : store.knowledge? node with
      | none => rfl
      | some knowledge => exact absurd ⟨node, knowledge, hlookup, hnone⟩ hknown
    have hrule : Rule program store (fun _ ↦ True) env expr (program.expr expr) .given
        (.closure ⟨env, expr, none⟩) := by
      rw [hliteral]
      exact .function hscope
    exact (Tied.write hsound henv hrule).mono (fun _ _ hwritten ↦ ⟨none, hscope, hwritten⟩)
      (fun _ _ hfail ↦ hfail)

theorem Companion.closeGroup_eq (companion : Companion program) (scope : Scope) :
    Rules.closeGroup companion.other scope = (Rules.closeGroup program scope : Evaluating EnvId) := by
  simp only [Rules.closeGroup, companion.group_eq]

theorem Closes.extendAll_eq (hcanonical : store.envs.Canonical)
    (hcloses : Closes program store scope env) :
    store.envs.extendAll scope.env (program.recursiveBindings scope) = (env, store.envs) :=
  Environments.extendAll_eq_of_entries _ hcanonical hcloses.outer hcloses.contains hcloses.entries

theorem Does.closeGroup (htidy : Tidy program store) (houter : store.envs.Contains scope.env) :
    Does companion (Rules.closeGroup program scope) (Rules.closeGroup companion.other scope) store
      fun id final ↦ Closes program final scope id ∧ final = { store with
        envs := (store.envs.extendAll scope.env (program.recursiveBindings scope)).2 } := by
  obtain ⟨hgrows, -, hcontains, hentries⟩ :=
    Environments.extendAll_spec (program.recursiveBindings scope) htidy.envs houter
  rw [companion.closeGroup_eq]
  refine (Does.changeEnvs
    (fun envs ↦ envs.extendAll scope.env (program.recursiveBindings scope)) hgrows
    (htidy.extendAll _ houter (Tidy.recursiveBindings_fit houter))).mono ?_
  rintro id final - - ⟨rfl, rfl⟩
  exact ⟨⟨hgrows.contains houter, hcontains, by rw [hgrows.entries_eq houter, hentries]⟩, rfl⟩

/-- Where the group has been closed, its environment is found. -/
theorem Tied.closeGroup {fail : Error → Store → Prop} (hsound : Sound program store)
    (hcloses : Closes program store scope env) :
    Tied companion (Rules.closeGroup program scope) (Rules.closeGroup companion.other scope) store
      (fun id final ↦ id = env ∧ final = store) fail := by
  refine (Does.closeGroup hsound.toTidy hcloses.outer).tied ?_
  rintro id final - - - ⟨hcloses', rfl⟩
  rw [hcloses.extendAll_eq hsound.envs] at hcloses' ⊢
  exact ⟨hsound, hcloses'.unique hsound.envs hcloses, rfl⟩

/-- What closing an entry leaves behind. -/
structure ClosedEntry (program : Program) (store : Store) (scope : Scope) (entry : GroupEntry)
    (node : NodeId) (final : Store) : Prop where
  closes : ∃ env, Closes program final scope env ∧ HoldsClosure final scope env entry.function node
  envs : final.envs = (store.envs.extendAll scope.env (program.recursiveBindings scope)).2
  covers : Covers store final [node]

theorem Does.closeEntry (hregular : program.Regular) (htidy : Tidy program store)
    (houter : store.envs.Contains scope.env) {entry : GroupEntry}
    (hentry : entry ∈ (program.group scope.group).entries) :
    Does companion (Rules.closeEntry program scope entry)
      (Rules.closeEntry companion.other scope entry) store
      (ClosedEntry program store scope entry) := by
  refine Does.bind (Does.closeGroup htidy houter) ?_
  rintro env middle hgrows htidy' ⟨hcloses, hmiddle⟩
  obtain ⟨demand, hliteral⟩ := hregular.literals hentry
  have hrule : Rule program middle (fun _ ↦ True) env entry.function (program.expr entry.function)
      .given (.closure ⟨env, entry.function, some scope⟩) := by
    rw [hliteral]
    exact .function (⟨hcloses, entry, hentry, rfl⟩ : IsMember _ _ _ _ _)
  have hcovers : Covers store middle [] := hmiddle ▸ .withEnvs store _ []
  refine (Does.write companion htidy' hcloses.contains hrule).mono fun hgrows' htidy'' hwritten ↦ ?_
  refine ⟨⟨env, hcloses.grow hgrows', hwritten.lookup, hwritten.knowledge⟩, ?_,
    hcovers.trans htidy'.toRooted hgrows' hwritten.covers⟩
  rw [hwritten.envs, hmiddle]

/-- The member of the group for an entry. -/
theorem Does.closeMember (hregular : program.Regular) (htidy : Tidy program store)
    (houter : store.envs.Contains scope.env) {entry : GroupEntry}
    (hentry : entry ∈ (program.group scope.group).entries) :
    Does companion
      (do
        let closure ← Rules.closeEntry program scope entry
        pure (Member.mk entry.name closure))
      (do
        let closure ← Rules.closeEntry companion.other scope entry
        pure (Member.mk entry.name closure)) store
      fun member final ↦ member.name = entry.name ∧
        ClosedEntry program store scope entry member.closure final :=
  Does.bind (Does.closeEntry hregular htidy houter hentry) fun _ _ hclosed ↦
    Does.of_pure ⟨rfl, hclosed⟩

/-- Where the environment of the group exists, closing entries changes no environment. -/
theorem Does.closeEntries (hregular : program.Regular) (hcloses : Closes program store scope env)
    {entries : List GroupEntry} (hentries : ∀ entry ∈ entries,
      entry ∈ (program.group scope.group).entries) (htidy : Tidy program store) :
    Does companion
      (entries.mapM fun entry ↦ do
        let closure ← Rules.closeEntry program scope entry
        pure (Member.mk entry.name closure))
      (entries.mapM fun entry ↦ do
        let closure ← Rules.closeEntry companion.other scope entry
        pure (Member.mk entry.name closure)) store
      fun members final ↦ HoldsClosures final scope env entries members ∧
        final.envs = store.envs ∧ Covers store final (members.map Member.closure) := by
  induction entries generalizing store with
  | nil => exact Does.of_pure ⟨.nil, rfl, .refl _ _⟩
  | cons entry entries ih =>
    rw [List.mapM_cons, List.mapM_cons]
    refine Does.bind (Does.closeMember hregular htidy hcloses.outer
      (hentries entry List.mem_cons_self)) ?_
    · rintro ⟨name, node⟩ middle hgrows htidy' ⟨rfl, hclosed⟩
      obtain ⟨env', hcloses', hholds⟩ := hclosed.closes
      cases hcloses'.unique htidy'.envs (hcloses.grow hgrows)
      have henvs : middle.envs = store.envs := by
        rw [hclosed.envs, hcloses.extendAll_eq htidy.envs]
      refine Does.bind (ih (hcloses.grow hgrows)
        (fun entry hentry ↦ hentries entry (List.mem_cons_of_mem _ hentry)) htidy') ?_
      rintro members final hgrows' - ⟨hrest, henvs', hcovers⟩
      exact Does.of_pure ⟨.cons (hholds.grow hgrows') hrest, henvs'.trans henvs,
        hclosed.covers.trans htidy'.toRooted hgrows' hcovers⟩

theorem Tied.closeMembers {fail : Error → Store → Prop} (scope : Scope)
    (hregular : program.Regular) (hsound : Sound program store) (houter : store.envs.Contains scope.env) :
    Tied companion (Rules.closeMembers program scope) (Rules.closeMembers companion.other scope)
      store (fun members final ↦ (∃ env, Members program final scope env members) ∧
        Covers store final (members.map Member.closure)) fail := by
  have hdoes : Does companion (Rules.closeMembers program scope)
      (Rules.closeMembers companion.other scope) store
      fun members final ↦ (∃ env, Members program final scope env members) ∧
        final.envs = (store.envs.extendAll scope.env (program.recursiveBindings scope)).2 ∧
        Covers store final (members.map Member.closure) := by
    rw [Rules.closeMembers, Rules.closeMembers, companion.group_eq]
    have hall : ∀ entry ∈ (program.group scope.group).entries,
        entry ∈ (program.group scope.group).entries := fun _ hentry ↦ hentry
    have hnil : (program.group scope.group).entries = [] →
        program.recursiveBindings scope = [] := by
      intro hnil
      simp [Program.recursiveBindings, hnil]
    unfold Members
    generalize hgroup : (program.group scope.group).entries = entries at *
    cases entries with
    | nil =>
      rw [hnil rfl]
      refine Does.of_pure ⟨⟨scope.env, ⟨houter, houter, ?_⟩, .nil⟩, rfl, .refl _ _⟩
      rw [hnil rfl]
      rfl
    | cons entry entries =>
      rw [List.mapM_cons, List.mapM_cons]
      refine Does.bind (Does.closeMember hregular hsound.toTidy houter
        (hgroup ▸ List.mem_cons_self)) ?_
      · rintro ⟨name, node⟩ middle hgrows htidy ⟨rfl, hclosed⟩
        obtain ⟨env, hcloses, hholds⟩ := hclosed.closes
        refine Does.bind (Does.closeEntries hregular hcloses
          (fun entry hentry ↦ hgroup ▸ List.mem_cons_of_mem _ hentry) htidy) ?_
        rintro members final hgrows' - ⟨hrest, henvs, hcovers⟩
        exact Does.of_pure ⟨⟨env, hcloses.grow hgrows', .cons (hholds.grow hgrows') hrest⟩,
          henvs.trans hclosed.envs, hclosed.covers.trans htidy.toRooted hgrows' hcovers⟩
  refine hdoes.tied ?_
  rintro members final hsound hgrows htidy ⟨⟨env, hmembers⟩, henvs, hcovers⟩
  refine ⟨hsound.of_extendAll _ houter htidy hgrows henvs fun hmem ↦ ?_, ⟨env, hmembers⟩, hcovers⟩
  obtain ⟨⟨entry, position⟩, -, heq⟩ := List.mem_map.1 hmem
  cases heq
  exact ⟨env, members, hmembers⟩

/-- Where the group has been closed, its closures are found. -/
theorem Tied.closeEntry {fail : Error → Store → Prop} (hregular : program.Regular)
    (hsound : Sound program store) {members : List Member}
    (hmembers : Members program store scope env members) {entry : GroupEntry}
    (hentry : entry ∈ (program.group scope.group).entries) :
    Tied companion (Rules.closeEntry program scope entry)
      (Rules.closeEntry companion.other scope entry) store
      (fun node final ↦ HoldsClosure final scope env entry.function node ∧ Covers store final [node])
      fail := by
  refine (Does.closeEntry hregular hsound.toTidy hmembers.1.outer hentry).tied ?_
  intro node final hsound hgrows htidy hclosed
  obtain ⟨env', hcloses, hholds⟩ := hclosed.closes
  cases hcloses.unique htidy.envs (hmembers.1.grow hgrows)
  refine ⟨hsound.of_envs_eq htidy hgrows ?_, hholds, hclosed.covers⟩
  rw [hclosed.envs, hmembers.1.extendAll_eq hsound.envs]

end Whence
