import Whence.Proofs.Sessions

/-!
# Remembering outcomes is invisible

A session that remembers outcomes answers every call as one that evaluates each time anew, and has
the same store after it, unless the latter gives up.
-/

namespace Whence.Session

variable {session session' : Session}

/-- The second session is the first one, except that it remembers outcomes. -/
structure Beside (session session' : Session) : Prop where
  memoize : session.settings.memoize = false
  program : session'.program = session.program
  settings : session'.settings = { session.settings with memoize := true }
  tie : (Companion.remembering session.program).tie session.machine session'.machine

namespace Beside

theorem store (hbeside : session.Beside session') : session'.store = session.store := hbeside.tie.1

/-- What is remembered stays right when both stores grow in the same way. -/
theorem withStore (hbeside : session.Beside session') {store : Store}
    (hgrows : session.store.Grows store) :
    Beside { session with machine := { session.machine with store } }
      { session' with machine := { session'.machine with store } } where
  memoize := hbeside.memoize
  program := hbeside.program
  settings := hbeside.settings
  tie := by
    refine ⟨rfl, hbeside.tie.2.1, fun hfound ↦ ?_⟩
    obtain ⟨earlier, hearlier, hreached⟩ := hbeside.tie.2.2 hfound
    exact ⟨earlier, hearlier.trans hgrows, hreached⟩

theorem input (hbeside : session.Beside session') (hsane : session.Sane) {value : Value}
    (hwithin : value.Within session.store) :
    (session'.answer (.input value)).1 = (session.answer (.input value)).1 ∧
      (session.answer (.input value)).2.Beside (session'.answer (.input value)).2 := by
  obtain ⟨node, store, hinput, htaken, -⟩ := hsane.sound.input_spec hwithin
  have hinput' : Store.input value session'.machine.store = .ok node store := by
    rw [← hinput]
    exact congrArg (Store.input value) hbeside.store
  rw [answer_input, answer_input, Machine.perform_ok hinput, Machine.perform_ok hinput']
  exact ⟨rfl, hbeside.withStore htaken.grows⟩

theorem bind (hbeside : session.Beside session') (env : EnvId) (name : String) (node : NodeId) :
    (session'.answer (.bind env name node)).1 = (session.answer (.bind env name node)).1 ∧
      (session.answer (.bind env name node)).2.Beside (session'.answer (.bind env name node)).2 := by
  cases hname : session.program.symbol? name with
  | none =>
    rw [answer_bind_of_none hname, answer_bind_of_none (hbeside.program ▸ hname)]
    exact ⟨rfl, hbeside⟩
  | some symbol =>
    rw [answer_bind_of_some hname, answer_bind_of_some (hbeside.program ▸ hname), hbeside.store]
    exact ⟨rfl, hbeside.withStore (Store.withEnvs_grows
      (Environments.extend_grows session.store.envs env symbol (.node node)))⟩

theorem evaluate (hbeside : session.Beside session') (hregular : session.program.Regular)
    (hpatterned : session.program.Patterned) (hsane : session.Sane) {env : EnvId}
    (henv : session.store.envs.Contains env) (expr : ExprId)
    (hends : ∀ error, (session.answer (.evaluate env expr)).1 = .error error →
      error.isLimit = false) :
    (session'.answer (.evaluate env expr)).1 = (session.answer (.evaluate env expr)).1 ∧
      (session.answer (.evaluate env expr)).2.Beside (session'.answer (.evaluate env expr)).2 := by
  have hremembers : ∀ depth, (Companion.remembering session.program).Remembers session.settings
      session'.settings (Evaluation.unremembered session.program session.settings depth) :=
    fun depth ↦ Companion.remembering_remembers hbeside.memoize
      (Replays.unremembered hregular hpatterned session.settings depth) _
  obtain ⟨hok, herror⟩ := Tied.evaluate _ hregular (by rw [hbeside.settings])
    (by rw [hbeside.settings]) hremembers henv expr session.machine rfl hsane.sound hsane.consistent
  rw [answer_evaluate, answer_evaluate, hbeside.program]
  rw [answer_evaluate] at hends
  cases hrun : Evaluation.evaluate session.program session.settings env expr session.machine with
  | ok node final =>
    obtain ⟨-, -, hfollows⟩ := hok hrun
    obtain ⟨final', hrun', htie⟩ := hfollows trivial hbeside.tie
    change Evaluation.evaluate session.program session'.settings env expr session'.machine = _
      at hrun'
    rw [hrun']
    exact ⟨rfl, hbeside.memoize, hbeside.program, hbeside.settings, htie⟩
  | error error final =>
    rw [hrun] at hends
    obtain ⟨-, -, hfollows⟩ := herror hrun
    have hpursues : (Companion.remembering session.program).Pursues error :=
      ⟨trivial, fun hlimit ↦ Bool.noConfusion ((hends error rfl).symm.trans hlimit)⟩
    obtain ⟨final', hrun', htie⟩ := hfollows hpursues trivial hbeside.tie
    change Evaluation.evaluate session.program session'.settings env expr session'.machine = _
      at hrun'
    rw [hrun']
    exact ⟨rfl, hbeside.memoize, hbeside.program, hbeside.settings, htie⟩

theorem answer (hbeside : session.Beside session') (hregular : session.program.Regular)
    (hpatterned : session.program.Patterned) (hsane : session.Sane) {call : Call}
    (hplain : call.isPlain = true) (hfits : call.Fits session.store)
    (hends : ∀ error, (session.answer call).1 = .error error → error.isLimit = false) :
    (session'.answer call).1 = (session.answer call).1 ∧
      (session.answer call).2.Beside (session'.answer call).2 := by
  cases call with
  | input value => exact hbeside.input hsane hfits
  | bind env name node => exact hbeside.bind env name node
  | spawn => cases hplain
  | update node value => cases hplain
  | evaluate env expr => exact hbeside.evaluate hregular hpatterned hsane hfits expr hends

theorem play (hbeside : session.Beside session') (hregular : session.program.Regular)
    (hpatterned : session.program.Patterned) (hsane : session.Sane) {calls : List Call}
    (hplain : ∀ call ∈ calls, call.isPlain = true) (hadmits : session.Admits calls)
    (hends : ∀ entry ∈ session.play calls, ∀ error, entry.1 = .error error →
      error.isLimit = false) : session'.play calls = session.play calls := by
  induction calls generalizing session session' with
  | nil => rfl
  | cons call calls ih =>
    have hcall := hplain call List.mem_cons_self
    obtain ⟨hanswer, hbeside'⟩ := hbeside.answer hregular hpatterned hsane hcall hadmits.1
      fun error herror ↦ hends _ List.mem_cons_self error herror
    obtain ⟨hsane', hcontinues⟩ := hsane.answer hregular hcall hadmits.1
    have hrest := ih hbeside' (hcontinues.program ▸ hregular)
      (hcontinues.program ▸ hpatterned) hsane'
      (fun call hcall ↦ hplain call (List.mem_cons_of_mem _ hcall)) hadmits.2
      fun entry hentry ↦ hends entry (List.mem_cons_of_mem _ hentry)
    rw [Session.play, Session.play, hanswer, hbeside'.store, hrest]

end Beside

/-- Whatever a session is asked before a revision is opened, remembering outcomes changes no answer
and, call by call, nothing in the store, provided that evaluation without a memory never gives up:
it neither nests too deeply nor follows a value that contains itself. -/
theorem play_memoized {program : Program} (hbuilt : program.Built) (hliteral : program.Literal)
    (settings : Settings) {plain memoized : Session}
    (hplain : Session.new program { settings with memoize := false } = .ok plain)
    (hmemoized : Session.new program { settings with memoize := true } = .ok memoized)
    {calls : List Call} (hcalls : ∀ call ∈ calls, call.isPlain = true) (hadmits : plain.Admits calls)
    (hends : ∀ entry ∈ plain.play calls, ∀ error, entry.1 = .error error →
      error.isLimit = false) : memoized.play calls = plain.play calls := by
  obtain ⟨machine, library, hfresh⟩ := exists_fresh hbuilt
  rw [hfresh.new_eq] at hplain hmemoized
  cases hplain
  cases hmemoized
  have hbeside : Beside ⟨program, { settings with memoize := false }, machine, {}, library⟩
      ⟨program, { settings with memoize := true }, machine, {}, library⟩ := by
    refine ⟨rfl, rfl, rfl, rfl, ?_, fun hfound ↦ ?_⟩
    · rw [hfresh.memo]
    · rw [hfresh.memo] at hfound
      simp at hfound
  exact hbeside.play (hbuilt.regular hliteral) hbuilt.patterned (hfresh.sane _) hcalls hadmits hends

/-- A session that takes in one text and evaluates twice a name that is bound to another one. -/
theorem play_memoized_oneLet : ∃ plain memoized calls,
    Session.new .oneLet { memoize := false } = .ok plain ∧
    Session.new .oneLet { memoize := true } = .ok memoized ∧
    calls = [.input (.text "more"), .evaluate plain.library ⟨2⟩, .evaluate plain.library ⟨2⟩] ∧
    memoized.play calls = plain.play calls := by
  obtain ⟨machine, library, hfresh⟩ := exists_fresh Program.oneLet_built
  have hplain := hfresh.new_eq { memoize := false }
  have hsane := hfresh.sane { memoize := false }
  -- Each call meets a session in order and is answered.
  obtain ⟨node, first, hfirst, hsane₁, hcontinues₁, -⟩ :=
    hsane.input (.text "more") trivial
  have hprogram₁ : first.program = .oneLet := hcontinues₁.program
  have hlevels : 3 ≤ ({ memoize := false } : Settings).maxDepth := by decide
  have hlevels₁ : 3 ≤ first.settings.maxDepth := by rwa [hcontinues₁.settings]
  have hlibrary₁ := hcontinues₁.grows.envs.contains hsane.library
  obtain ⟨result, hresult⟩ := hsane₁.evaluate_oneLet hprogram₁ hlibrary₁ hlevels₁
  obtain ⟨hsane₂, hcontinues₂, -⟩ :=
    hsane₁.evaluate (hprogram₁ ▸ Program.oneLet_regular) hlibrary₁ ⟨2⟩
  have hlibrary₂ := hcontinues₂.grows.envs.contains hlibrary₁
  obtain ⟨result', hresult'⟩ := hsane₂.evaluate_oneLet (hcontinues₂.program.trans hprogram₁) hlibrary₂
    (by rw [hcontinues₂.settings]; exact hlevels₁)
  refine ⟨_, _, _, hplain, hfresh.new_eq { memoize := true }, rfl,
    play_memoized Program.oneLet_built Program.oneLet_literal {} hplain (hfresh.new_eq _)
      ?_ ?_ ?_⟩
  · simp [Call.isPlain]
  · refine ⟨trivial, ?_⟩
    rw [hfirst]
    exact ⟨hlibrary₁, hlibrary₂, trivial⟩
  · intro entry hentry error herror
    simp only [Session.play, hfirst, List.mem_cons, List.not_mem_nil, or_false] at hentry
    obtain rfl | rfl | rfl := hentry
    · cases herror
    · rw [hresult] at herror
      cases herror
    · rw [hresult'] at herror
      cases herror

end Whence.Session
