import Whence.Proofs.Sessions
import Whence.Proofs.Slice.Backward

/-!
# Backward slices that go on with a pass

A backward slice starts from its roots alone.  What an earlier slice of the pass has flagged is kept
but not looked at again, so the flags are closed under the dependencies of the current revision only
as far as they are new, or were closed before.
-/

namespace Whence

namespace Closure

variable {next : Target → List Target} {settled : Target → Bool} {queue : List Target}
  {flags : Std.HashSet Target}

/-- What follows a target, unless the target is settled. -/
def nextOf (next : Target → List Target) (settled : Target → Bool) (target : Target) :
    List Target :=
  if settled target then [] else next target

/-- Only what was not flagged enters the queue. -/
theorem mem_enqueue (queue : List Target) (flags : Std.HashSet Target) {targets : List Target}
    {target : Target} (htarget : target ∈ (enqueue queue flags targets).1) :
    target ∈ queue ∨ flags.contains target = false := by
  induction targets generalizing queue flags with
  | nil => exact .inl htarget
  | cons first rest ih =>
    unfold enqueue at htarget
    split at htarget
    case isTrue => exact ih queue flags htarget
    case isFalse hnew =>
      obtain hqueue | hother := ih _ _ htarget
      · rw [List.mem_append, List.mem_singleton] at hqueue
        obtain hqueue | rfl := hqueue
        · exact .inl hqueue
        · exact .inr (by simpa using hnew)
      · rw [Std.HashSet.contains_insert, Bool.or_eq_false_iff] at hother
        exact .inr hother.2

/-- Flags that are settled at the start and not in the queue have no part in spreading. -/
theorem spread_nextOf (steps : Nat) (hqueue : ∀ target ∈ queue, settled target = false)
    (hsettled : ∀ {target}, settled target = true → flags.contains target = true) :
    spread next steps queue flags = spread (nextOf next settled) steps queue flags := by
  induction steps generalizing queue flags with
  | zero => rfl
  | succ steps ih =>
    cases queue with
    | nil => rfl
    | cons target queue =>
      have hnext : nextOf next settled target = next target := by
        rw [nextOf, hqueue target List.mem_cons_self, if_neg Bool.false_ne_true]
      have henqueued := enqueue_spec queue flags fun following (hmem : following ∈ next target) ↦ hmem
      simp only [spread, hnext]
      refine ih (fun other hother ↦ ?_) fun hother ↦ henqueued.keeps (hsettled hother)
      obtain hold | hnew := mem_enqueue queue flags hother
      · exact hqueue other (List.mem_cons_of_mem _ hold)
      · rw [Bool.eq_false_iff]
        intro hother'
        rw [hsettled hother'] at hnew
        cases hnew

/-- Spreading from roots that are not settled, when all other flags are. -/
theorem close_of_settled {world roots : List Target}
    (hworld : ∀ target following, following ∈ next target → following ∈ world) {limit : Nat}
    (hlimit : world.length ≤ limit) (hroots : ∀ root ∈ roots, settled root = false)
    (hflags : ∀ {target}, flags.contains target = true ↔ target ∈ roots ∨ settled target = true) :
    (∀ {target}, flags.contains target = true →
      (close next limit roots flags).contains target = true) ∧
    (∀ {target}, (close next limit roots flags).contains target = true → settled target = false →
      ∀ following ∈ next target, (close next limit roots flags).contains following = true) ∧
    ∀ {member : Target → Prop}, (∀ {target}, flags.contains target = true → member target) →
      (∀ {target}, member target → settled target = false →
        ∀ following ∈ next target, member following) →
      ∀ {target}, (close next limit roots flags).contains target = true → member target := by
  have hunsettled : ∀ {target}, settled target = false → nextOf next settled target = next target :=
    fun htarget ↦ by rw [nextOf, htarget, if_neg Bool.false_ne_true]
  have hmem : ∀ {target following}, following ∈ nextOf next settled target →
      settled target = false ∧ following ∈ next target := by
    intro target following hfollowing
    unfold nextOf at hfollowing
    split at hfollowing
    case isTrue => cases hfollowing
    case isFalse htarget => exact ⟨by simpa using htarget, hfollowing⟩
  have hclose : close next limit roots flags = close (nextOf next settled) limit roots flags :=
    spread_nextOf _ hroots fun hsettled ↦ hflags.2 (.inr hsettled)
  obtain ⟨hkeeps, hcloses⟩ := close_spec
    (fun target following hfollowing ↦ hworld target following (hmem hfollowing).2) hlimit
    (fun root hroot ↦ hflags.2 (.inl hroot)) fun htarget ↦ (hflags.1 htarget).imp_right
      fun hsettled following hfollowing ↦ by simp [nextOf, hsettled] at hfollowing
  rw [hclose]
  refine ⟨hkeeps, fun htarget hnew ↦ ?_, fun hmember hnext _ htarget ↦ ?_⟩
  · rw [← hunsettled hnew]
    exact hcloses htarget
  · refine spread_least (fun htarget following hfollowing ↦ ?_) _
      (fun root hroot ↦ hmember (hflags.2 (.inl hroot))) hmember htarget
    exact hnext htarget (hmem hfollowing).1 following (hmem hfollowing).2

end Closure

namespace Slice

variable {store : Store} {roots : List Target} {marks final : Marks}

/-- What a backward slice makes of what was needed before it: the least set with that and the roots
that holds the sources of each of its members, unless the member was needed before and is no root. -/
structure Accumulates (store : Store) (roots : List Target) (marks final : Marks) : Prop where
  kept : ∀ {target}, marks.isNeeded target = true → final.isNeeded target = true
  start : ∀ root ∈ roots, final.isNeeded root = true
  sources : ∀ {target}, final.isNeeded target = true → marks.isNeeded target = false ∨ target ∈ roots →
    ∀ source ∈ Slice.sources store target, final.isNeeded source = true
  least : ∀ {member : Target → Prop}, (∀ {target}, marks.isNeeded target = true → member target) →
    (∀ root ∈ roots, member root) →
    (∀ {target}, member target → marks.isNeeded target = false ∨ target ∈ roots →
      ∀ source ∈ Slice.sources store target, member source) →
    ∀ {target}, final.isNeeded target = true → member target

/-- The least set with the roots and what was needed before that holds the sources of each of its
members. -/
structure Closes (store : Store) (roots : List Target) (marks final : Marks) : Prop where
  kept : ∀ {target}, marks.isNeeded target = true → final.isNeeded target = true
  start : ∀ root ∈ roots, final.isNeeded root = true
  sources : ∀ {target}, final.isNeeded target = true →
    ∀ source ∈ Slice.sources store target, final.isNeeded source = true
  least : ∀ {member : Target → Prop}, (∀ {target}, marks.isNeeded target = true → member target) →
    (∀ root ∈ roots, member root) →
    (∀ {target}, member target → ∀ source ∈ Slice.sources store target, member source) →
    ∀ {target}, final.isNeeded target = true → member target

/-- The flags are closed if those that were needed before and are not looked at again have their
sources among them. -/
theorem Accumulates.closes_iff (haccumulates : Accumulates store roots marks final) :
    Closes store roots marks final ↔ ∀ {target}, marks.isNeeded target = true → target ∉ roots →
      ∀ source ∈ Slice.sources store target, final.isNeeded source = true := by
  constructor
  · exact fun hcloses _ htarget _ ↦ hcloses.sources (hcloses.kept htarget)
  · intro hold
    refine ⟨haccumulates.kept, haccumulates.start, fun {target} htarget ↦ ?_,
      fun {member} hkept hstart hnext ↦ haccumulates.least hkept hstart fun hmember _ ↦ hnext hmember⟩
    by_cases hroot : target ∈ roots
    · exact haccumulates.sources htarget (.inr hroot)
    · by_cases hmarked : marks.isNeeded target = true
      · exact hold hmarked hroot
      · exact haccumulates.sources htarget (.inl (by simpa using hmarked))

/-- If what was needed before holds its sources in the store as it is, so does all that is needed. -/
theorem Accumulates.closes (haccumulates : Accumulates store roots marks final)
    (hclosed : ∀ {target}, marks.isNeeded target = true →
      ∀ source ∈ Slice.sources store target, marks.isNeeded source = true) :
    Closes store roots marks final :=
  haccumulates.closes_iff.2 fun htarget _ source hsource ↦
    haccumulates.kept (hclosed htarget source hsource)

theorem isNeeded_of_backward (hdirection : marks.direction = .backward) (target : Target) :
    marks.isNeeded target = marks.isFlagged target := by
  simp [Marks.isNeeded, hdirection]

theorem backward_accumulates (hdirection : marks.direction = .backward) (store : Store)
    (roots : List Target) : ∃ final, backward marks store roots = .ok final ∧
      final.direction = .backward ∧ Accumulates store roots marks final := by
  let settled : Target → Bool := fun target ↦ marks.isFlagged target && !roots.contains target
  have hsettled : ∀ {target}, settled target = false ↔
      marks.isNeeded target = false ∨ target ∈ roots := by
    intro target
    rw [isNeeded_of_backward hdirection]
    cases hflagged : marks.isFlagged target <;> simp [settled, hflagged]
  have hflags : ∀ {target}, (flagAll marks roots).contains target = true ↔
      target ∈ roots ∨ settled target = true := by
    intro target
    rw [contains_flagAll]
    by_cases hroot : target ∈ roots <;> simp [settled, hroot]
  obtain ⟨hkeeps, hcloses, hleast⟩ := Closure.close_of_settled sources_world (length_world_le store)
    (fun root hroot ↦ hsettled.2 (.inr hroot)) hflags
  have hneeded : ∀ target, Marks.isNeeded { marks with
      flagged := Closure.close (sources store) (2 * store.size) roots (flagAll marks roots) } target =
      (Closure.close (sources store) (2 * store.size) roots (flagAll marks roots)).contains target :=
    isNeeded_of_backward hdirection
  refine ⟨_, backward_eq hdirection store roots, hdirection, ?_⟩
  constructor
  case kept =>
    intro target htarget
    rw [hneeded]
    rw [isNeeded_of_backward hdirection] at htarget
    exact hkeeps (contains_flagAll.2 (.inr htarget))
  case start =>
    intro root hroot
    rw [hneeded]
    exact hkeeps (contains_flagAll.2 (.inl hroot))
  case sources =>
    intro target htarget hnew source hsource
    rw [hneeded] at htarget ⊢
    exact hcloses htarget (hsettled.2 hnew) source hsource
  case least =>
    intro member hkept hstart hnext target htarget
    rw [hneeded] at htarget
    refine hleast (fun {flagged} hflagged ↦ ?_) (fun hmember hnew ↦ hnext hmember (hsettled.1 hnew))
      htarget
    obtain hroot | hmarked := contains_flagAll.1 hflagged
    · exact hstart flagged hroot
    · exact hkept (by rw [isNeeded_of_backward hdirection, hmarked])

end Slice

namespace Session

theorem ensureDirection_eq (session : Session) (direction : Direction) :
    ensureDirection direction session = .ok () { session with
      marks := if session.marks.direction = direction then session.marks else .start direction } := by
  rw [ensureDirection, run_get_bind]
  split <;> rfl

/-- A backward slice never fails.  What is needed after it is what was needed before it in the same
pass, together with the roots and all that is found by going from the roots to sources, without
going on from what was needed already.  So the whole is the least closed set with the roots and what
was needed before exactly if it holds the sources of the latter; and it does if what was needed
before was closed. -/
theorem sliceBackward_accumulates (session : Session) (roots : List Target) :
    ∃ marks, sliceBackward roots session = .ok () { session with marks } ∧
      marks.direction = .backward ∧ Slice.Accumulates session.store roots session.marks marks ∧
      (Slice.Closes session.store roots session.marks marks ↔
        ∀ {target}, session.marks.isNeeded target = true → target ∉ roots →
          ∀ source ∈ Slice.sources session.store target, marks.isNeeded source = true) ∧
      ((∀ {target}, session.marks.isNeeded target = true →
          ∀ source ∈ Slice.sources session.store target, session.marks.isNeeded source = true) →
        Slice.Closes session.store roots session.marks marks) := by
  -- A pass that has just started needs nothing, and neither does one in the other direction.
  let started := if session.marks.direction = .backward then session.marks else .start .backward
  have hdirection : started.direction = .backward := by
    simp only [started]
    split
    case isTrue hbackward => exact hbackward
    case isFalse => rfl
  have hneeded : ∀ target, started.isNeeded target = session.marks.isNeeded target := by
    intro target
    simp only [started]
    split
    case isTrue => rfl
    case isFalse hforward => simp [Marks.isNeeded, Marks.isFlagged, Marks.start, hforward]
  obtain ⟨marks, hbackward, hfinal, haccumulates⟩ :=
    Slice.backward_accumulates hdirection session.store roots
  have haccumulates' : Slice.Accumulates session.store roots session.marks marks := by
    obtain ⟨hkept, hstart, hsources, hleast⟩ := haccumulates
    simp only [hneeded] at hkept hsources hleast
    exact ⟨hkept, hstart, hsources, hleast⟩
  refine ⟨marks, ?_, hfinal, haccumulates', haccumulates'.closes_iff, haccumulates'.closes⟩
  simp only [sliceBackward, run_bind, ensureDirection_eq, remark, run_get]
  rw [show store { session with marks := started } = session.store from rfl, hbackward]
  rfl

end Session

/-! ## A slice that leaves the flags open -/

namespace Session

/-- After a slice from an input the input is given a part in a new revision.  Slicing on does not
find the part, since the input is not looked at again. -/
theorem sliceBackward_not_closed : ∃ session before changed marks, ∃ part whole : NodeId,
    Session.new .twoTexts {} = .ok session ∧
    sliceBackward [.node whole] (session.after [.input (.text "part"), .input (.text "whole")]) =
      .ok () before ∧
    before.after [.spawn, .update whole (.constructor ⟨0⟩ [part])] = changed ∧
    sliceBackward [] changed = .ok () { changed with marks } ∧
    changed.marks.isNeeded (.node whole) = true ∧
    .node part ∈ Slice.sources changed.store (.node whole) ∧
    marks.isNeeded (.node part) = false ∧ ¬Slice.Closes changed.store [] changed.marks marks := by
  obtain ⟨machine, library, hfresh⟩ := exists_fresh Program.twoTexts_built
  have hsane := hfresh.sane {}
  obtain ⟨part, session₁, hpart, hsane₁, hcontinues₁, htaken₁⟩ := hsane.input (.text "part") trivial
  obtain ⟨whole, session₂, hwhole, hsane₂, hcontinues₂, htaken₂⟩ :=
    hsane₁.input (.text "whole") trivial
  have hafter : after ⟨.twoTexts, {}, machine, {}, library⟩
      [.input (.text "part"), .input (.text "whole")] = session₂ := by
    simp only [after, List.foldl_cons, List.foldl_nil, hpart, hwhole]
  have hne : part ≠ whole := by
    rw [htaken₁.node_eq, htaken₂.node_eq, htaken₁.size]
    simp
  have hknown : session₂.store.knowledge? part = some (.of .given (.text "part")) :=
    htaken₂.grows.knowledge htaken₁.knowledge
  -- Before the change the input needs nothing but itself.
  have hstart : ∀ {target}, session₂.marks.isNeeded target = true → target = .node whole := by
    intro target htarget
    rw [hcontinues₂.marks, hcontinues₁.marks] at htarget
    cases htarget
  have hsources : Slice.sources session₂.store (.node whole) = [] := by
    rw [Slice.sources, Store.dependencies, htaken₂.address,
      Store.references_of_knowledge htaken₂.knowledge]
    rfl
  obtain ⟨marks, hslice, -, haccumulates, -, -⟩ := sliceBackward_accumulates session₂ [.node whole]
  have hneeded : ∀ {target}, marks.isNeeded target = true → target = .node whole := by
    refine haccumulates.least hstart (fun root hroot ↦ List.mem_singleton.1 hroot) ?_
    rintro target rfl - source hsource
    rw [hsources] at hsource
    cases hsource
  -- The change gives it a part.
  obtain ⟨store, hupdate, halike, hchanged, hothers⟩ :=
    hsane₂.sound.toRooted.update_spawn htaken₂.knowledge (.constructor ⟨0⟩ [part]) rfl
  let changed : Session := { session₂ with machine := { session₂.machine with store }, marks }
  have hchange : after { session₂ with marks } [.spawn, .update whole (.constructor ⟨0⟩ [part])] =
      changed := by
    have hanswer : answer { session₂ with
        machine := { session₂.machine with store := session₂.store.spawn.2 }, marks }
        (.update whole (.constructor ⟨0⟩ [part])) = (.ok .done, changed) := by
      rw [answer_of_run rfl, Machine.perform_ok hupdate]
      rfl
    simp only [after, List.foldl_cons, List.foldl_nil]
    exact congrArg Prod.snd hanswer
  have hcounts : store.counts part = true := by
    have hpartKnown : store.isKnown part = true := by
      rw [Store.isKnown, hothers hne, hknown]
      rfl
    have hpartLibrary : store.isLibrary part = false := by
      rw [Store.isLibrary, halike.library]
      exact hsane₂.sound.toTidy.isLibrary_of_text hknown
    rw [Store.counts, hpartKnown, hpartLibrary]
    rfl
  have hsource : .node part ∈ Slice.sources store (.node whole) := by
    refine List.mem_append_right _ (List.mem_map.2 ⟨part, List.mem_eraseDups.2 ?_, rfl⟩)
    rw [Store.references_of_knowledge hchanged]
    simp [Value.children, Explanation.dependencies, hcounts]
  obtain ⟨marks', hslice', -, haccumulates', -, -⟩ := sliceBackward_accumulates changed []
  have hpartNeeded : marks'.isNeeded (.node part) = false := by
    rw [Bool.eq_false_iff]
    intro hpartNeeded
    have hold : ∀ {target}, marks'.isNeeded target = true → marks.isNeeded target = true := by
      refine haccumulates'.least id (fun root hroot ↦ absurd hroot List.not_mem_nil) ?_
      rintro target htarget (hnew | hroot)
      · exact absurd htarget (Bool.eq_false_iff.1 hnew)
      · exact absurd hroot List.not_mem_nil
    exact hne (Target.node.inj (hneeded (hold hpartNeeded)))
  have hwholeNeeded : marks.isNeeded (.node whole) = true :=
    haccumulates.start _ List.mem_cons_self
  refine ⟨_, _, changed, marks', part, whole, hfresh.new_eq {}, by rw [hafter, hslice], hchange,
    hslice', hwholeNeeded, hsource, hpartNeeded, fun hcloses ↦ ?_⟩
  have hclosed := hcloses.sources (hcloses.kept hwholeNeeded) _ hsource
  rw [hpartNeeded] at hclosed
  cases hclosed

end Session

end Whence
