import Whence.Proofs.Mirrors
import Whence.Proofs.Parallels.Sessions
import Whence.Proofs.Views

/-!
# Evaluating again is free

Whatever a session without edits is asked, in whatever revision, there is a session that was asked the
same and never opened a revision, and its store mirrors that of the first one.  What was evaluated
once is found in place there, so that evaluating it again changes neither store.
-/

namespace Whence

namespace History

variable {history final : History} {lineage : List Revision} {revision : Revision}
  {knowledge : Knowledge}

/-- A write gives its revision an entry at most, and only if it has none. -/
theorem Commits.versions (hcommits : Commits history lineage revision knowledge final) :
    final.versions = history.versions ∨
      revision ∉ history.versions ∧ final.versions = history.versions ++ [revision] := by
  cases hcommits with
  | blank _ => exact .inl rfl
  | amend _ _ => exact .inl (versions_amend _ _ _)
  | record hnone _ hrecords =>
    have hnew := lookup_eq_none_iff.1 hnone
    cases hrecords with
    | echo _ _ _ => exact .inl rfl
    | first _ => exact .inr ⟨hnew, versions_enter _ _ _⟩
    | extend _ _ => exact .inr ⟨hnew, versions_enter _ _ _⟩
    | replace _ _ => exact .inr ⟨hnew, versions_enter _ _ _⟩

end History

namespace Store

variable {store final layered : Store} {node : NodeId}

theorem Step.versions (hstep : Step store final) (node : NodeId) :
    final.versions node = store.versions node ∨
      store.current ∉ store.versions node ∧
        final.versions node = store.versions node ++ [store.current] := by
  obtain hsame | ⟨knowledge, hcommits⟩ := hstep.history node
  · exact .inl (congrArg History.versions hsame)
  · exact hcommits.versions

theorem Steps.versions (hsteps : Steps store final) (node : NodeId) :
    final.versions node = store.versions node ∨
      store.current ∉ store.versions node ∧
        final.versions node = store.versions node ++ [store.current] := by
  induction hsteps with
  | refl => exact .inl rfl
  | tail hsteps hstep ih =>
    have hstep' := hstep.versions node
    rw [Steps.current_eq hsteps] at hstep'
    obtain hsame | ⟨hnew, happended⟩ := ih
    · rwa [hsame] at hstep'
    · obtain hsame | ⟨hnone, -⟩ := hstep'
      · exact .inr ⟨hnew, hsame.trans happended⟩
      · exact absurd (by rw [happended]; simp) hnone

/-- What other revisions have entered stays in sight. -/
theorem Steps.visible?_eq (hsteps : Steps store final) {lineage : List Revision}
    (hcurrent : store.current ∉ lineage) (node : NodeId) :
    (final.node node).history.visible? lineage = (store.node node).history.visible? lineage := by
  induction hsteps with
  | refl => rfl
  | tail hsteps hstep ih =>
    obtain hsame | ⟨knowledge, hcommits⟩ := hstep.history node
    · rw [hsame, ih]
    · rw [← Steps.current_eq hsteps] at hcurrent
      rw [hcommits.visible?_eq fun hmem ↦ absurd hmem hcurrent, ih]

/-- Steps that leave the mirror as it is add no version. -/
theorem Mirrors.versions_eq (hmirrors : store.Mirrors layered) (hmirrors' : store.Mirrors final)
    (hsteps : layered.Steps final) (node : NodeId) : final.versions node = layered.versions node := by
  obtain hsame | ⟨hnew, happended⟩ := hsteps.versions node
  · exact hsame
  · obtain ⟨ancestors, hlineage, hyounger⟩ := layered.revisions.exists_ancestors layered.current
    have hlineage' : final.revisions.lineage final.current = final.current :: ancestors := by
      rw [hsteps.current_eq, hsteps.revisions_eq]
      exact hlineage
    have hvisible := hsteps.visible?_eq (fun hmem ↦ Nat.lt_irrefl _ (hyounger _ hmem)) node
    have hentry : final.current ∈ (final.node node).history.versions := by
      change _ ∈ final.versions node
      rw [happended, hsteps.current_eq]
      simp
    -- What the new entry shows was to be seen before, so the entry was there before.
    rw [(hmirrors'.shows hlineage' node).mem_versions_iff, hvisible,
      ← (hmirrors.shows hlineage node).mem_versions_iff] at hentry
    exact absurd hentry hnew

end Store

namespace Session

variable {program : Program} {mirror session : Session} {env : EnvId} {expr : ExprId}

/-- The call changes an input. -/
def Call.isUpdate : Call → Bool
  | .update _ _ => true
  | _ => false

/-- The first session, in which no revision was opened, has the store that mirrors that of the second
one, and remembers what is of use in the second one. -/
structure Mirrors (mirror session : Session) : Prop where
  sane : mirror.Sane
  program : session.program = mirror.program
  settings : session.settings = mirror.settings
  store : mirror.store.Mirrors session.store
  memo : session.machine.synchronize.memo =
    ⟨session.store.current, mirror.machine.memo.outcomes⟩
  /-- The memory is that of a revision that has been opened. -/
  opened : session.store.revisions.contains session.machine.memo.revision = true

/-- A session mirrors itself before a revision is opened. -/
theorem Sane.mirrors (hsane : session.Sane) : session.Mirrors session where
  sane := hsane
  program := rfl
  settings := rfl
  store := .of_rooted hsane.sound.toRooted
  memo := by
    rw [hsane.consistent.synchronize hsane.sound.toRooted, hsane.sound.toRooted.lineage.2,
      ← hsane.consistent.revision]
  opened := by
    rw [hsane.consistent.revision, hsane.sound.toRooted.revisions]
    rfl

namespace Mirrors

/-- A call refers to what exists in one session if it does so in the other one. -/
theorem fits (hmirrors : mirror.Mirrors session) {call : Call} (hfits : call.Fits session.store) :
    call.Fits mirror.store := by
  have halike := hmirrors.store.alike
  cases call with
  | input value => exact halike.within.1 hfits
  | bind env name node => exact ⟨halike.envs ▸ hfits.1, halike.contains.1 hfits.2⟩
  | spawn => trivial
  | update node value => exact ⟨halike.contains.1 hfits.1, halike.within.1 hfits.2⟩
  | evaluate env expr =>
    rw [Call.Fits, halike.envs] at hfits
    exact hfits

theorem parallels (hmirrors : mirror.Mirrors session) :
    Parallels History.Shows mirror session :=
  ⟨hmirrors.sane, hmirrors.program, hmirrors.settings, Store.mirrors_iff_parallels.1 hmirrors.store,
    hmirrors.memo, hmirrors.opened⟩

theorem of_parallels (hparallels : Parallels History.Shows mirror session) :
    mirror.Mirrors session :=
  ⟨hparallels.sane, hparallels.program, hparallels.settings,
    Store.mirrors_iff_parallels.2 hparallels.store, hparallels.memo, hparallels.opened⟩

theorem input (hmirrors : mirror.Mirrors session) {value : Value}
    (hwithin : value.Within mirror.store) :
    (mirror.answer (.input value)).2.Mirrors (session.answer (.input value)).2 := by
  refine of_parallels (hmirrors.parallels.input hwithin fun hinput htaken ↦ ?_)
  obtain ⟨layered, hinput', hstores⟩ := hmirrors.store.input hmirrors.sane.sound.toRooted hinput
    htaken.grows.knowledge
  exact ⟨layered, hinput', Store.mirrors_iff_parallels.1 hstores⟩

theorem bind (hmirrors : mirror.Mirrors session) {name : String} {node : NodeId}
    (henv : mirror.store.envs.Contains env) (hnode : mirror.store.Contains node) :
    (mirror.answer (.bind env name node)).2.Mirrors (session.answer (.bind env name node)).2 :=
  of_parallels (hmirrors.parallels.bind henv hnode)

/-- A session that opens a revision is mirrored by one that forgets what it remembers. -/
theorem spawn (hmirrors : mirror.Mirrors session) :
    Mirrors { mirror with machine := { mirror.machine with memo := {} } }
      (session.answer .spawn).2 :=
  of_parallels (hmirrors.parallels.spawn (Store.mirrors_iff_parallels.1 hmirrors.store.spawn))

/-- An evaluation comes to the same in both sessions. -/
theorem evaluate (hmirrors : mirror.Mirrors session) (hregular : mirror.program.Regular)
    (henv : mirror.store.envs.Contains env) (expr : ExprId) :
    (session.answer (.evaluate env expr)).1 = (mirror.answer (.evaluate env expr)).1 ∧
      (mirror.answer (.evaluate env expr)).2.Mirrors (session.answer (.evaluate env expr)).2 := by
  have htie : (Companion.mirroring mirror.program).tie mirror.machine
      session.machine.synchronize := by
    refine ⟨?_, ?_⟩
    · rw [Machine.store_synchronize]
      exact hmirrors.store
    · rw [hmirrors.memo, Machine.store_synchronize]
      rfl
  obtain ⟨hsame, hparallels⟩ := hmirrors.parallels.evaluate hregular henv expr
    (Companion.mirroring mirror.program) rfl
    (fun depth ↦ Companion.mirroring_remembers mirror.settings _)
    (fun htie ↦ ⟨Store.mirrors_iff_parallels.1 htie.1, htie.2⟩) htie trivial
    fun _ ↦ ⟨trivial, fun _ ↦ trivial⟩
  exact ⟨hsame, of_parallels hparallels⟩

/-- Whatever is asked without an edit, there is a session without revisions that mirrors the one that
was asked. -/
theorem answer (hmirrors : mirror.Mirrors session) (hregular : mirror.program.Regular) {call : Call}
    (hupdate : call.isUpdate = false) (hfits : call.Fits session.store) :
    ∃ final : Session, final.Mirrors (session.answer call).2 ∧ mirror.Continues final := by
  have hfits' := hmirrors.fits hfits
  have hcontinues (hplain : call.isPlain = true) :=
    (hmirrors.sane.answer hregular hplain hfits').2
  cases call with
  | input value => exact ⟨_, hmirrors.input hfits', hcontinues rfl⟩
  | bind env name node => exact ⟨_, hmirrors.bind hfits'.1 hfits'.2, hcontinues rfl⟩
  | spawn => exact ⟨_, hmirrors.spawn, rfl, rfl, rfl, rfl, .refl _⟩
  | update node value => cases hupdate
  | evaluate env expr => exact ⟨_, (hmirrors.evaluate hregular hfits' expr).2, hcontinues rfl⟩

theorem after (hmirrors : mirror.Mirrors session) (hregular : mirror.program.Regular)
    {calls : List Call} (hupdates : ∀ call ∈ calls, call.isUpdate = false)
    (hadmits : session.Admits calls) :
    ∃ final : Session, final.Mirrors (session.after calls) ∧ mirror.Continues final := by
  induction calls generalizing mirror session with
  | nil => exact ⟨mirror, hmirrors, .refl mirror⟩
  | cons call calls ih =>
    obtain ⟨middle, hmirrors', hcontinues⟩ :=
      hmirrors.answer hregular (hupdates call List.mem_cons_self) hadmits.1
    obtain ⟨final, hfinal, hcontinues'⟩ := ih hmirrors' (hcontinues.program ▸ hregular)
      (fun call hcall ↦ hupdates call (List.mem_cons_of_mem _ hcall)) hadmits.2
    exact ⟨final, hfinal, hcontinues.trans hcontinues'⟩

end Mirrors

/-! ## Evaluating twice -/

/-- What a session has evaluated, its mirror has reached. -/
theorem Mirrors.exists_reached (hmirrors : mirror.Mirrors session) (hregular : mirror.program.Regular)
    (henv : mirror.store.envs.Contains env) {node : NodeId} {final : Session}
    (hanswer : session.answer (.evaluate env expr) = (.ok (.node node), final)) :
    ∃ (after : Session) (outcome : Outcome), after.Mirrors final ∧ mirror.Continues after ∧
      Reached mirror.program after.store env expr .everything outcome ∧ outcome.node = node := by
  obtain ⟨hsame, hmirrors'⟩ := hmirrors.evaluate hregular henv expr
  obtain ⟨-, hcontinues, -, hevaluates⟩ := hmirrors.sane.evaluate hregular henv expr
  rw [← hsame, hanswer] at hevaluates
  rw [hanswer] at hmirrors'
  obtain ⟨found, hfound, outcome, ⟨hreached, -⟩, rfl⟩ | ⟨error, herror, -⟩ := hevaluates
  · cases hfound
    exact ⟨_, outcome, hmirrors', hcontinues, hreached, rfl⟩
  · cases herror

/-- Without revisions, what has been evaluated is evaluated again without touching the store, unless
evaluations nest too deeply. -/
theorem Sane.evaluate_reached (hsane : session.Sane) (hregular : session.program.Regular)
    (hpatterned : session.program.Patterned) {outcome : Outcome}
    (hreached : Reached session.program session.store env expr .everything outcome) :
    (session.answer (.evaluate env expr)).2.store = session.store ∧
      ((∃ limit, (session.answer (.evaluate env expr)).1 = .error (.depthExceeded limit)) ∨
        (session.answer (.evaluate env expr)).1 = .ok (.node outcome.node)) := by
  obtain ⟨final, hstore, -, hrun | ⟨error, hrun, hexceeded⟩⟩ :=
    Repeats.evaluate hregular hpatterned session.settings hsane.sound hreached session.machine rfl
      hsane.consistent
  · rw [answer_evaluate, hrun]
    exact ⟨hstore, .inr rfl⟩
  · rw [answer_evaluate, hrun]
    refine ⟨hstore, .inl ?_⟩
    cases error with
    | depthExceeded limit => exact ⟨limit, rfl⟩
    | _ => cases hexceeded

/-- A session evaluates again what its mirror has reached: the answer is the same node, the store is
still mirrored, and no version is added. -/
theorem Mirrors.evaluate_reached (hmirrors : mirror.Mirrors session)
    (hregular : mirror.program.Regular) (hpatterned : mirror.program.Patterned)
    (henv : mirror.store.envs.Contains env) {outcome : Outcome}
    (hreached : Reached mirror.program mirror.store env expr .everything outcome) :
    ((∃ limit, (session.answer (.evaluate env expr)).1 = .error (.depthExceeded limit)) ∨
      (session.answer (.evaluate env expr)).1 = .ok (.node outcome.node)) ∧
    mirror.store.Mirrors (session.answer (.evaluate env expr)).2.store ∧
    ∀ other, (session.answer (.evaluate env expr)).2.store.versions other =
      session.store.versions other := by
  obtain ⟨hsame, hmirrors'⟩ := hmirrors.evaluate hregular henv expr
  obtain ⟨hstore, hanswer⟩ := hmirrors.sane.evaluate_reached hregular hpatterned hreached
  have hstores := hmirrors'.store
  rw [hstore] at hstores
  have hsteps : session.store.Steps (session.answer (.evaluate env expr)).2.store := by
    rw [answer_evaluate, respond_store]
    exact Stepwise.evaluate session.program session.settings env expr session.machine
  rw [hsame]
  exact ⟨hanswer, hstores, hmirrors.store.versions_eq hstores hsteps⟩

/-- What a session has evaluated once it evaluates for free, in the same revision and in all later
ones, as long as no input is changed: whatever it was asked in between, it comes to the same node,
which is shown in the same way, unless evaluations nest too deeply.  No node, no environment and no
version of a node is added. -/
theorem evaluate_again (hbuilt : program.Built) (hliteral : program.Literal) (settings : Settings)
    (hnew : Session.new program settings = .ok session) {earlier later : List Call}
    (hearlier : ∀ call ∈ earlier, call.isUpdate = false) (hadmits : session.Admits earlier)
    (henv : (session.after earlier).store.envs.Contains env) {node : NodeId} {first : Session}
    (hfirst : (session.after earlier).answer (.evaluate env expr) = (.ok (.node node), first))
    (hlater : ∀ call ∈ later, call.isUpdate = false) (hadmits' : first.Admits later) :
    let last := first.after later
    let again := last.answer (.evaluate env expr)
    ((∃ limit, again.1 = .error (.depthExceeded limit)) ∨
      again.1 = .ok (.node node) ∧
        View.of again.2.store program node = View.of first.store program node) ∧
    again.2.store.size = last.store.size ∧ again.2.store.envs = last.store.envs ∧
    ∀ other, again.2.store.versions other = last.store.versions other := by
  intro last again
  obtain ⟨session', hnew', hsane, rfl, rfl⟩ := exists_new hbuilt settings
  cases hnew.symm.trans hnew'
  have hregular := hbuilt.regular hliteral
  have hpatterned := hbuilt.patterned
  -- The mirror evaluates with the session, and keeps what it has reached until the end.
  obtain ⟨before, hbefore, hcontinues⟩ := hsane.mirrors.after hregular hearlier hadmits
  rw [← hcontinues.program] at hregular hpatterned
  rw [hbefore.store.alike.envs] at henv
  obtain ⟨evaluated, outcome, hevaluated, hgrown, hreached, rfl⟩ :=
    hbefore.exists_reached hregular henv hfirst
  rw [← hgrown.program] at hregular hpatterned hreached
  obtain ⟨after, hafter, hlasts⟩ := hevaluated.after hregular hlater hadmits'
  have hforced := hreached.settled.forced hregular.everything
  have hreached' := hreached.grow hevaluated.sane.sound.envs hlasts.grows
  rw [← hlasts.program] at hregular hpatterned hreached'
  obtain ⟨hagain, hstores, hversions⟩ := hafter.evaluate_reached hregular hpatterned
    (hlasts.grows.envs.contains (hgrown.grows.envs.contains henv)) hreached'
  refine ⟨hagain.imp_right fun hnode ↦ ⟨hnode, ?_⟩, ?_, ?_, hversions⟩
  · calc View.of again.2.store session.program outcome.node
      _ = View.of after.store session.program outcome.node :=
        View.of_congr hstores.value? hstores.alike.size _
      _ = View.of evaluated.store session.program outcome.node := View.of_grow hlasts.grows hforced
      _ = View.of first.store session.program outcome.node :=
        (View.of_congr hevaluated.store.value? hevaluated.store.alike.size _).symm
  · exact hstores.alike.size.trans hafter.store.alike.size.symm
  · exact hstores.alike.envs.trans hafter.store.alike.envs.symm

/-- A name that is bound to a text is evaluated again, two revisions later, after another text was taken
in and the bare name was looked for in vain. -/
theorem evaluate_again_oneLet : ∃ (session first : Session) (node : NodeId),
    Session.new .oneLet {} = .ok session ∧
    session.answer (.evaluate session.library ⟨2⟩) = (.ok (.node node), first) ∧
    let last := first.after
      [.input (.text "more"), .spawn, .evaluate session.library ⟨1⟩, .spawn]
    let again := last.answer (.evaluate session.library ⟨2⟩)
    ((∃ limit, again.1 = .error (.depthExceeded limit)) ∨
      again.1 = .ok (.node node) ∧
        View.of again.2.store .oneLet node = View.of first.store .oneLet node) ∧
    again.2.store.size = last.store.size ∧ again.2.store.envs = last.store.envs ∧
    ∀ other, again.2.store.versions other = last.store.versions other := by
  obtain ⟨session, hnew, hsane, hprogram, hsettings⟩ := exists_new Program.oneLet_built {}
  obtain ⟨node, hnode⟩ :=
    hsane.evaluate_oneLet hprogram hsane.library (by rw [hsettings]; decide)
  obtain ⟨hsane₁, hcontinues₁, -⟩ :=
    hsane.evaluate (hprogram ▸ Program.oneLet_regular) hsane.library ⟨2⟩
  obtain ⟨_, second, hsecond, -, hcontinues₂, -⟩ := hsane₁.input (.text "more") trivial
  have hlibrary := hcontinues₂.grows.envs.contains (hcontinues₁.grows.envs.contains hsane.library)
  refine ⟨session, _, node, hnew, Prod.ext hnode rfl,
    evaluate_again Program.oneLet_built Program.oneLet_literal {} hnew (List.forall_mem_nil _)
      trivial hsane.library (Prod.ext hnode rfl) (by simp [Call.isUpdate]) ⟨trivial, ?_⟩⟩
  rw [hsecond]
  exact ⟨trivial, hlibrary, trivial, trivial⟩

end Session

end Whence
