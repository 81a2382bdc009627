import Whence.Error

/-!
# Where computations stop

The builder, the store and evaluation are computations on a state that stop with a result or with an
error, and the state stays as it is then.  `Stops` has a condition for either end.  What is said of
the builder, of stores and of machines is said by such conditions, so that sequences are gone through
here only.
-/

namespace Whence

variable {α β σ : Type} {computation : EStateM Error σ α} {next next' : α → EStateM Error σ β}
  {state final : σ}

/-- The state in which a computation stops, whether it succeeds or fails. -/
def stateAfter (computation : EStateM Error σ α) (state : σ) : σ :=
  match computation state with
  | .ok _ final => final
  | .error _ final => final

/-- The first condition holds if the computation succeeds, and the second one if it fails. -/
def Stops (computation : EStateM Error σ α) (state : σ) (done : α → σ → Prop)
    (failed : σ → Prop) : Prop :=
  match computation state with
  | .ok result final => done result final
  | .error _ final => failed final

theorem run_bind (computation : EStateM Error σ α) (next : α → EStateM Error σ β) (state : σ) :
    (computation >>= next) state =
      match computation state with
      | .ok result middle => next result middle
      | .error error middle => .error error middle := by
  change EStateM.bind computation next state = _
  unfold EStateM.bind
  cases computation state <;> rfl

/-- A sequence that succeeds does so in both parts. -/
theorem run_bind_eq_ok {result : β} (hrun : (computation >>= next) state = .ok result final) :
    ∃ first middle, computation state = .ok first middle ∧ next first middle = .ok result final := by
  rw [run_bind] at hrun
  cases hfirst : computation state with
  | ok first middle =>
    rw [hfirst] at hrun
    exact ⟨first, middle, rfl, hrun⟩
  | error error middle =>
    rw [hfirst] at hrun
    cases hrun

/-- A sequence that fails does so in one of its parts. -/
theorem run_bind_eq_error {error : Error}
    (hrun : (computation >>= next) state = .error error final) :
    computation state = .error error final ∨ ∃ result middle,
      computation state = .ok result middle ∧ next result middle = .error error final := by
  rw [run_bind] at hrun
  cases hfirst : computation state with
  | ok result middle =>
    rw [hfirst] at hrun
    exact .inr ⟨result, middle, rfl, hrun⟩
  | error error' middle =>
    rw [hfirst] at hrun
    cases hrun
    exact .inl rfl

/-- What a computation does at first decides how it goes on. -/
theorem run_bind_congr {computation' : EStateM Error σ α}
    (hsame : computation state = computation' state) (next : α → EStateM Error σ β) :
    (computation >>= next) state = (computation' >>= next) state := by
  rw [run_bind, run_bind, hsame]

theorem run_get (state : σ) : (get : EStateM Error σ σ) state = .ok state state := rfl

theorem run_get_bind (next : σ → EStateM Error σ β) (state : σ) :
    (get >>= next) state = next state state := rfl

theorem run_modifyGet_bind (change : σ → α × σ) (next : α → EStateM Error σ β) (state : σ) :
    (modifyGet change >>= next) state = next (change state).1 (change state).2 := rfl

theorem run_modify_bind (change : σ → σ) (next : PUnit → EStateM Error σ β) (state : σ) :
    (modify change >>= next) state = next ⟨⟩ (change state) := rfl

namespace Stops

variable {done done' : α → σ → Prop} {failed failed' : σ → Prop} {last : β → σ → Prop}

theorem ok (hstops : Stops computation state done failed) {result : α}
    (hrun : computation state = .ok result final) : done result final := by
  rw [Stops, hrun] at hstops
  exact hstops

theorem error (hstops : Stops computation state done failed) {error : Error}
    (hrun : computation state = .error error final) : failed final := by
  rw [Stops, hrun] at hstops
  exact hstops

theorem of_run (hdone : ∀ {result final}, computation state = .ok result final → done result final)
    (hfailed : ∀ {error final}, computation state = .error error final → failed final) :
    Stops computation state done failed := by
  unfold Stops
  cases hrun : computation state with
  | ok result final => exact hdone hrun
  | error error final => exact hfailed hrun

theorem mono (hstops : Stops computation state done failed)
    (hdone : ∀ {result final}, done result final → done' result final)
    (hfailed : ∀ {final}, failed final → failed' final) :
    Stops computation state done' failed' :=
  of_run (fun hrun ↦ hdone (hstops.ok hrun)) fun hrun ↦ hfailed (hstops.error hrun)

theorem bind (hfirst : Stops computation state done failed)
    (hnext : ∀ {result middle}, done result middle → Stops (next result) middle last failed')
    (hfailed : ∀ {final}, failed final → failed' final) :
    Stops (computation >>= next) state last failed' := by
  refine of_run (fun hrun ↦ ?_) fun hrun ↦ ?_
  · obtain ⟨first, middle, hrun, hrest⟩ := run_bind_eq_ok hrun
    exact (hnext (hfirst.ok hrun)).ok hrest
  · obtain hrun | ⟨first, middle, hrun, hrest⟩ := run_bind_eq_error hrun
    · exact hfailed (hfirst.error hrun)
    · exact (hnext (hfirst.ok hrun)).error hrest

/-- Two continuations that agree on what a computation comes to may be exchanged. -/
theorem bind_congr (hfirst : Stops computation state done failed)
    (hsame : ∀ {result middle}, done result middle → next result middle = next' result middle) :
    (computation >>= next) state = (computation >>= next') state := by
  rw [run_bind, run_bind]
  cases hrun : computation state with
  | ok result middle => exact hsame (hfirst.ok hrun)
  | error error middle => rfl

/-- What holds at either end holds of the state afterwards. -/
theorem stateAfter {holds : σ → Prop} (hstops : Stops computation state done failed)
    (hdone : ∀ {result final}, done result final → holds final)
    (hfailed : ∀ {final}, failed final → holds final) :
    holds (Whence.stateAfter computation state) := by
  unfold Whence.stateAfter
  cases hrun : computation state with
  | ok result final => exact hdone (hstops.ok hrun)
  | error error final => exact hfailed (hstops.error hrun)

end Stops

end Whence
