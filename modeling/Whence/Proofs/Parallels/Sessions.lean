import Whence.Proofs.Isolation
import Whence.Proofs.Parallels.Stores

/-!
# A session without revisions beside one with revisions

A session that never opens a revision can be led beside one that does, through the same calls.  What
is remembered is of use in both, until a revision is opened: then the second session forgets it, and
the first one has to forget it as well.
-/

namespace Whence.Session

variable {beside session : Session} {env : EnvId}
  {relates : History → Revision → List Revision → Option Knowledge → Prop}

/-- The first session, in which no revision was opened, has a store beside that of the second one, and
remembers what is of use in the second one. -/
structure Parallels (relates : History → Revision → List Revision → Option Knowledge → Prop)
    (beside session : Session) : Prop where
  sane : beside.Sane
  program : session.program = beside.program
  settings : session.settings = beside.settings
  store : beside.store.Parallels relates session.store
  memo : session.machine.synchronize.memo =
    ⟨session.store.current, beside.machine.memo.outcomes⟩
  /-- The memory is that of a revision that has been opened. -/
  opened : session.store.revisions.contains session.machine.memo.revision = true

namespace Parallels

/-- A change that leaves the revisions alone goes along with one that does the same. -/
theorem withStore (hparallels : Parallels relates beside session) {store layered : Store}
    (hsane : Sane { beside with machine := { beside.machine with store } })
    (hstores : store.Parallels relates layered)
    (hrevisions : layered.revisions = session.store.revisions) :
    Parallels relates { beside with machine := { beside.machine with store } }
      { session with machine := { session.machine with store := layered } } where
  sane := hsane
  program := hparallels.program
  settings := hparallels.settings
  store := hstores
  memo := by
    have hcurrent : layered.current = session.store.current := by rw [Store.current, hrevisions]; rfl
    exact (Machine.memo_synchronize_congr hcurrent).trans (hcurrent ▸ hparallels.memo)
  opened := hrevisions ▸ hparallels.opened

theorem input (hparallels : Parallels relates beside session) {value : Value}
    (hwithin : value.Within beside.store)
    (htakes : ∀ {node store}, Store.input value beside.store = .ok node store →
      TakenIn beside.store value node store → ∃ layered,
        Store.input value session.store = .ok node layered ∧ store.Parallels relates layered) :
    Parallels relates (beside.answer (.input value)).2 (session.answer (.input value)).2 := by
  obtain ⟨node, store, hinput, htaken, hsound⟩ := hparallels.sane.sound.input_spec hwithin
  obtain ⟨layered, hinput', hstores⟩ := htakes hinput htaken
  obtain ⟨hsane, -⟩ := hparallels.sane.withMachine { beside.machine with store } htaken.grows hsound
    (hparallels.sane.consistent.grow hparallels.sane.sound.envs htaken.grows)
  have hrevisions := Store.Steps.revisions_eq (Store.Steps.input value session.store)
  rw [stateAfter, hinput'] at hrevisions
  rw [answer_input, answer_input, Machine.perform_ok hinput, Machine.perform_ok hinput']
  exact hparallels.withStore hsane hstores hrevisions

theorem bind (hparallels : Parallels relates beside session) {name : String} {node : NodeId}
    (henv : beside.store.envs.Contains env) (hnode : beside.store.Contains node) :
    Parallels relates (beside.answer (.bind env name node)).2
      (session.answer (.bind env name node)).2 := by
  have hsane := (hparallels.sane.bind henv hnode name).1
  cases hname : beside.program.symbol? name with
  | none =>
    rw [answer_bind_of_none hname, answer_bind_of_none (hparallels.program ▸ hname)]
    exact hparallels
  | some symbol =>
    rw [answer_bind_of_some hname] at hsane ⊢
    rw [answer_bind_of_some (hparallels.program ▸ hname)]
    refine hparallels.withStore hsane ?_ rfl
    rw [Store.extend, Store.extend, hparallels.store.alike.envs]
    exact hparallels.store.withEnvs _

/-- A session that opens a revision goes along with one that forgets what it remembers. -/
theorem spawn (hparallels : Parallels relates beside session)
    (hstores : beside.store.Parallels relates session.store.spawn.2) :
    Parallels relates { beside with machine := { beside.machine with memo := {} } }
      (session.answer .spawn).2 where
  sane := ⟨hparallels.sane.sound,
    ⟨hparallels.sane.consistent.stocked, rfl, fun hfound ↦ by simp at hfound⟩,
    hparallels.sane.library⟩
  program := hparallels.program
  settings := hparallels.settings
  store := hstores
  memo := by
    have hrevision : session.machine.memo.revision ≠ session.store.spawn.2.current := by
      intro hsame
      have hopened := hparallels.opened
      rw [hsame] at hopened
      exact Bool.noConfusion
        ((Revisions.contains_spawn_current session.store.revisions).symm.trans hopened)
    change (Machine.synchronize ⟨session.store.spawn.2, session.machine.memo⟩).memo = _
    rw [Machine.synchronize, if_neg hrevision]
    rfl
  opened := Revisions.contains_spawn hparallels.opened

theorem withMachine (hparallels : Parallels relates beside session) {machine layered : Machine}
    (hsane : Sane { beside with machine }) (hstores : machine.store.Parallels relates layered.store)
    (hmemo : layered.memo = ⟨layered.store.current, machine.memo.outcomes⟩) :
    Parallels relates { beside with machine } { session with machine := layered } where
  sane := hsane
  program := hparallels.program
  settings := hparallels.settings
  store := hstores
  memo := by
    rw [Machine.synchronize_of_revision (by rw [hmemo])]
    exact hmemo
  opened := by
    rw [hmemo]
    exact layered.store.revisions.contains_current

/-- An evaluation comes to the same in both sessions if a companion leads from the one to the other. -/
theorem evaluate (hparallels : Parallels relates beside session) (hregular : beside.program.Regular)
    (henv : beside.store.envs.Contains env) (expr : ExprId) (companion : Companion beside.program)
    (hother : companion.other = beside.program)
    (hremembers : ∀ depth, companion.Remembers beside.settings beside.settings
      (Evaluation.unremembered beside.program beside.settings depth))
    (htied : ∀ {machine machine'}, companion.tie machine machine' →
      machine.store.Parallels relates machine'.store ∧
        machine'.memo = ⟨machine'.store.current, machine.memo.outcomes⟩)
    (htie : companion.tie beside.machine session.machine.synchronize)
    (hagree : companion.agree (beside.answer (.evaluate env expr)).2.store)
    (hpursues : ∀ {error}, (beside.answer (.evaluate env expr)).1 = .error error →
      companion.Pursues error) :
    (session.answer (.evaluate env expr)).1 = (beside.answer (.evaluate env expr)).1 ∧
      Parallels relates (beside.answer (.evaluate env expr)).2
        (session.answer (.evaluate env expr)).2 := by
  obtain ⟨hok, herror⟩ := Tied.evaluate companion hregular rfl rfl hremembers henv expr
    beside.machine rfl hparallels.sane.sound hparallels.sane.consistent
  have hsane := (hparallels.sane.evaluate hregular henv expr).1
  rw [answer_evaluate] at hsane hagree hpursues
  rw [answer_evaluate, answer_evaluate, hparallels.program, hparallels.settings,
    ← Evaluation.evaluate_synchronize _ _ _ _ session.machine]
  rw [hother] at hok herror
  cases hrun : Evaluation.evaluate beside.program beside.settings env expr beside.machine with
  | ok node final =>
    rw [hrun] at hsane hagree
    obtain ⟨final', hrun', htie'⟩ := (hok hrun).2.2 hagree htie
    rw [hrun']
    exact ⟨rfl, hparallels.withMachine hsane (htied htie').1 (htied htie').2⟩
  | error error final =>
    rw [hrun] at hsane hagree hpursues
    obtain ⟨final', hrun', htie'⟩ := (herror hrun).2.2 (hpursues rfl) hagree htie
    rw [hrun']
    exact ⟨rfl, hparallels.withMachine hsane (htied htie').1 (htied htie').2⟩

end Parallels

end Whence.Session
