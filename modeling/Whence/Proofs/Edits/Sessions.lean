import Whence.Proofs.Edits.Updates
import Whence.Proofs.Parallels.Sessions

/-!
# Sessions with edits

A session in which inputs are edited is led beside one that is right: it has never opened a revision
and knows nothing that is outdated.  When the session evaluates, the other one does so from what still
holds.  When an input changes, the other one starts again from what holds then.
-/

namespace Whence.Session

variable {correct session : Session} {env : EnvId} {expr : ExprId} {node : NodeId} {value : Value}

/-- The session brought up to date, with what it has remembered in the current revision. -/
noncomputable def refreshed (session : Session) : Session :=
  { session with machine :=
      ⟨session.store.upToDate session.program, ⟨.root, session.machine.synchronize.memo.outcomes⟩⟩ }

/-- Evaluating from scratch comes across nothing that is outdated and that somebody holds, and finds
nothing that counts as the same as what is outdated although it is not. -/
def Spares (session : Session) (env : EnvId) (expr : ExprId) : Prop :=
  (session.refreshed.answer (.evaluate env expr)).2.store.SparesOutdated
    (session.store.outdated? session.program)
    (∃ error, (session.refreshed.answer (.evaluate env expr)).1 = .error error)

/-- The first session, in which no revision was opened, knows what is right in the second one. -/
structure Corrects (correct session : Session) : Prop
    extends Parallels History.Bears correct session where
  raw : correct.store.RawInputs
  library : session.library = correct.library

/-- The session has not evaluated anything in the current revision. -/
structure Untouched (session : Session) : Prop where
  unwritten : session.store.Unwritten
  forgotten : session.machine.synchronize.memo.outcomes = ∅

namespace Untouched

variable (huntouched : session.Untouched)
include huntouched

theorem forgotten_of_current {store : Store} (hcurrent : store.current = session.store.current) :
    (Machine.synchronize ⟨store, session.machine.memo⟩).memo.outcomes = ∅ := by
  rw [← huntouched.forgotten]
  exact congrArg Memo.outcomes (Machine.memo_synchronize_congr hcurrent)

theorem input (hnamed : session.store.Named) : (session.answer (.input value)).2.Untouched := by
  have hinput := hnamed.input_eq value
  rw [answer_input, Machine.perform_ok hinput]
  exact ⟨huntouched.unwritten.input hnamed hinput, huntouched.forgotten_of_current rfl⟩

theorem bind {name : String} : (session.answer (.bind env name node)).2.Untouched := by
  cases hname : session.program.symbol? name with
  | none => rwa [answer_bind_of_none hname]
  | some symbol =>
    rw [answer_bind_of_some hname]
    exact ⟨huntouched.unwritten, huntouched.forgotten_of_current rfl⟩

end Untouched

/-- A session that has been brought up to date is right if its store is and its inputs are in order. -/
theorem refreshed_corrects (store : Store) (hregular : session.program.Regular)
    (hsound : Sound session.program store) (halike : store.Alike session.store)
    (hkept : ∀ {node env expr knowledge}, store.address node = .evaluation env expr →
      store.knowledge? node = some knowledge → session.store.knowledge? node = some knowledge)
    (hsupplied : session.store.Supplied) (hraw : session.store.RawInputs)
    (hstocked : ∀ primitive, ∃ node, store.library.lookup primitive = some node)
    (hlibrary : store.envs.Contains session.library)
    (hstores : (session.store.upToDate session.program).Corrects session.store)
    (hmemo : ∀ {request : Request} {outcome},
      session.machine.synchronize.memo.outcomes[request]? = some outcome →
        Reached session.program (session.store.upToDate session.program) request.env request.expr
          request.demand outcome)
    (hopened : session.store.revisions.contains session.machine.memo.revision = true) :
    session.refreshed.Corrects session where
  sane :=
    have hsame := halike.trans (Store.alike_upToDate session.program session.store)
    ⟨hsound.upToDate halike hsupplied hregular hkept,
      ⟨fun primitive ↦ hsame.library ▸ hstocked primitive, rfl, hmemo⟩, hsame.envs ▸ hlibrary⟩
  program := rfl
  settings := rfl
  store := hstores
  memo := by
    change session.machine.synchronize.memo =
      ⟨session.machine.store.current, session.machine.synchronize.memo.outcomes⟩
    rw [← Machine.revision_synchronize]
  opened := hopened
  raw := hraw.of_grows (Store.upToDate_grows session.program session.store)
  library := rfl

namespace Corrects

variable (hcorrects : correct.Corrects session)
include hcorrects

theorem stores : correct.store.Corrects session.store := hcorrects.store

theorem sound : Sound session.program correct.store := hcorrects.program ▸ hcorrects.sane.sound

/-- Bringing a session up to date loses nothing that is right. -/
theorem grows_refreshed : correct.store.Grows session.refreshed.store :=
  hcorrects.sound.grows_upToDate hcorrects.store.alike hcorrects.stores.knowledge?_eq

theorem refreshed (hregular : session.program.Regular) : session.refreshed.Corrects session := by
  have htidy := hcorrects.sound.toTidy
  refine refreshed_corrects correct.store hregular hcorrects.sound hcorrects.store.alike
    (fun _ hknown ↦ hcorrects.stores.knowledge?_eq hknown) (hcorrects.stores.supplied htidy)
    (hcorrects.stores.rawInputs htidy hcorrects.raw) hcorrects.sane.consistent.stocked
    (hcorrects.library ▸ hcorrects.sane.library) (hcorrects.stores.upToDate hcorrects.sound) ?_
    hcorrects.opened
  intro request outcome hfound
  rw [hcorrects.memo] at hfound
  have hreached := (hcorrects.sane.consistent.memo hfound).grow hcorrects.sound.envs
    hcorrects.grows_refreshed
  rw [← hcorrects.program] at hreached
  exact hreached

theorem input (hwithin : value.Within session.store) (hraw : value.isRaw = true)
    (hregular : session.program.Regular) :
    (correct.answer (.input value)).2.Corrects (session.answer (.input value)).2 where
  toParallels := hcorrects.toParallels.input (hcorrects.store.alike.within.1 hwithin)
    fun hinput htaken ↦ hcorrects.stores.input hcorrects.sound.toTidy hinput htaken
  raw := hcorrects.sane.inputsSatisfy_answer (hcorrects.program ▸ hregular) rfl hraw
    (hcorrects.store.alike.within.1 hwithin) hcorrects.raw
  library := by
    rw [library_answer, library_answer, hcorrects.library]

theorem bind {name : String} (henv : session.store.envs.Contains env)
    (hnode : session.store.Contains node) (hregular : session.program.Regular) :
    (correct.answer (.bind env name node)).2.Corrects (session.answer (.bind env name node)).2 := by
  have hfits : Call.Fits correct.store (.bind env name node) :=
    ⟨hcorrects.store.alike.envs ▸ henv, hcorrects.store.alike.contains.1 hnode⟩
  exact {
    toParallels := hcorrects.toParallels.bind hfits.1 hfits.2
    raw := hcorrects.sane.inputsSatisfy_answer (hcorrects.program ▸ hregular) rfl trivial hfits
      hcorrects.raw
    library := by rw [library_answer, library_answer, hcorrects.library] }

theorem spawn : Corrects { correct with machine := { correct.machine with memo := {} } }
    (session.answer .spawn).2 where
  toParallels := hcorrects.toParallels.spawn hcorrects.stores.spawn
  raw := hcorrects.raw
  library := hcorrects.library

/-- Nothing has been evaluated in a revision that was just opened. -/
theorem untouched_spawn : (session.answer .spawn).2.Untouched where
  unwritten node _ _ _ :=
    hcorrects.store.unopened (Revisions.contains_spawn_current session.store.revisions) node
  forgotten := by
    rw [hcorrects.spawn.memo]

omit hcorrects in
/-- An evaluation that spares what is outdated comes to what evaluation from scratch comes to. -/
theorem evaluate (hcorrects : session.refreshed.Corrects session) (hregular : session.program.Regular)
    (henv : session.store.envs.Contains env) (hspares : session.Spares env expr) :
    (session.answer (.evaluate env expr)).1 = (session.refreshed.answer (.evaluate env expr)).1 ∧
      (session.refreshed.answer (.evaluate env expr)).2.Corrects
        (session.answer (.evaluate env expr)).2 := by
  have hregular' : session.refreshed.program.Regular := hregular
  have hraw : (session.refreshed.answer (.evaluate env expr)).2.store.RawInputs :=
    hcorrects.sane.inputsSatisfy_answer hregular' rfl trivial henv hcorrects.raw
  have htie : (Companion.correcting session.program (session.store.outdated? session.program)
      (∃ error, (session.refreshed.answer (.evaluate env expr)).1 = .error error)).tie
        session.refreshed.machine session.machine.synchronize := by
    refine ⟨?_, fun hnone hold ↦ ?_, ?_⟩
    · rw [Machine.store_synchronize]
      exact hcorrects.store
    · rw [Machine.store_synchronize] at hold
      exact Store.outdated?_of_holding? ((Store.knowledge?_upToDate _ _ _).symm.trans hnone) hold
    · rw [hcorrects.memo, Machine.store_synchronize]
      rfl
  obtain ⟨hsame, hparallels⟩ := hcorrects.toParallels.evaluate hregular henv expr
    (Companion.correcting session.program _ _) rfl
    (fun depth ↦ Companion.correcting_remembers session.settings _)
    (fun htie ↦ ⟨htie.1, htie.2.2⟩) htie ⟨hraw, hspares⟩ fun herror ↦ ⟨⟨_, herror⟩, fun _ ↦ trivial⟩
  exact ⟨hsame, { hparallels with
    raw := hraw
    library := by rw [library_answer, library_answer, hcorrects.library] }⟩

/-- What a change of an input, before anything was evaluated in its revision, comes to. -/
theorem update (hregular : session.program.Regular) (huntouched : session.Untouched)
    (hnode : session.store.Contains node) {source : NodeId}
    (haddress : session.store.address node = .input source)
    (hlibrary : session.store.isLibrary node = false) (hsuits : value.Suits node) :
    (∃ correct' : Session, correct'.Corrects (session.answer (.update node value)).2) ∧
      (session.answer (.update node value)).2.Untouched := by
  have htidy := hcorrects.sound.toTidy
  obtain ⟨final, hupdate, hupdated, hcommits⟩ | ⟨error, hupdate⟩ :=
    Store.update_cases (hcorrects.stores.named htidy) hnode value
  · obtain ⟨hsupplied, hraw, hstores⟩ := hcorrects.stores.update htidy hcorrects.raw
      huntouched.unwritten hnode haddress hlibrary hsuits hupdated hcommits
    have hforgotten := huntouched.forgotten_of_current hupdated.current
    rw [answer_update, Machine.perform_ok hupdate]
    refine ⟨⟨_, refreshed_corrects correct.store hregular hcorrects.sound
      (hcorrects.store.alike.trans hupdated.alike) ?_ hsupplied hraw
      hcorrects.sane.consistent.stocked (hcorrects.library ▸ hcorrects.sane.library) hstores ?_ ?_⟩,
      hupdated.unwritten huntouched.unwritten haddress, hforgotten⟩
    · intro other env expr knowledge hevaluation hknown
      have hother : other ≠ node := by
        rintro rfl
        rw [hcorrects.store.alike.address, hevaluation] at haddress
        cases haddress
      exact (hupdated.knowledge?_of_ne hother).trans (hcorrects.stores.knowledge?_eq hknown)
    · intro request outcome hfound
      change (Machine.synchronize ⟨final, session.machine.memo⟩).memo.outcomes[request]? = _ at hfound
      rw [hforgotten] at hfound
      simp at hfound
    · exact hupdated.revisions ▸ hcorrects.opened
  · rw [answer_update, Machine.perform_error hupdate]
    exact ⟨⟨correct, hcorrects⟩, huntouched⟩

end Corrects

end Whence.Session
