import Whence.Slice.Closure

/-!
# Spreading runs to the end

If all targets that can be reached lie in a list no longer than the limit, spreading from the roots
stops because the queue is empty.  The flags are then closed: whatever follows a flagged target is
flagged.
-/

namespace Whence.Closure

variable {next : Target → List Target} {world queue : List Target} {flags : Std.HashSet Target}

/-- The number of targets that may still be flagged. -/
def room (world : List Target) (flags : Std.HashSet Target) : Nat :=
  world.countP fun target ↦ !flags.contains target

/-- Flagging a new target takes room. -/
theorem room_insert {target : Target} (hworld : target ∈ world)
    (hnew : flags.contains target = false) : room world (flags.insert target) < room world flags := by
  induction world with
  | nil => cases hworld
  | cons first rest ih =>
    have hle : room rest (flags.insert target) ≤ room rest flags := by
      refine List.countP_mono_left fun other _ hother ↦ ?_
      simp only [Std.HashSet.contains_insert, Bool.not_eq_eq_eq_not, Bool.not_true,
        Bool.or_eq_false_iff] at hother
      simp [hother.2]
    simp only [room, List.countP_cons] at ih hle ⊢
    by_cases hsame : first = target
    · subst hsame
      simp only [Std.HashSet.contains_insert_self, hnew, Bool.not_true, Bool.not_false]
      exact Nat.lt_succ_of_le hle
    · have hrest := ih ((List.mem_cons.1 hworld).resolve_left fun heq ↦ hsame heq.symm)
      have hfirst : (flags.insert target).contains first = flags.contains first := by
        rw [Std.HashSet.contains_insert, beq_eq_false_iff_ne.2 (Ne.symm hsame), Bool.false_or]
      rw [hfirst]
      omega

/-- What the queue and the flags have become after new targets have entered. -/
structure Enqueued (world queue : List Target) (flags : Std.HashSet Target) (targets : List Target)
    (queue' : List Target) (flags' : Std.HashSet Target) : Prop where
  room_le : queue'.length + room world flags' ≤ queue.length + room world flags
  keeps : ∀ {target}, flags.contains target = true → flags'.contains target = true
  all : ∀ target ∈ targets, flags'.contains target = true
  queued : ∀ target ∈ queue, target ∈ queue'
  source : ∀ {target}, flags'.contains target = true →
    flags.contains target = true ∨ target ∈ queue'
  entered : ∀ target ∈ queue', target ∈ queue ∨ target ∈ targets
  flagged : (∀ target ∈ queue, flags.contains target = true) →
    ∀ target ∈ queue', flags'.contains target = true

theorem enqueue_spec (queue : List Target) (flags : Std.HashSet Target) {targets : List Target}
    (hworld : ∀ target ∈ targets, target ∈ world) :
    Enqueued world queue flags targets (enqueue queue flags targets).1
      (enqueue queue flags targets).2 := by
  induction targets generalizing queue flags with
  | nil =>
    exact ⟨Nat.le_refl _, id, fun _ hmem ↦ absurd hmem List.not_mem_nil, fun _ hmem ↦ hmem, .inl,
      fun _ hmem ↦ .inl hmem, id⟩
  | cons target rest ih =>
    have hrest := fun target hmem ↦ hworld target (List.mem_cons_of_mem _ hmem)
    unfold enqueue
    split
    · rename_i hold
      have henqueued := ih queue flags hrest
      refine { henqueued with all := fun other hother ↦ ?_, entered := fun other hother ↦ ?_ }
      · obtain rfl | hother := List.mem_cons.1 hother
        · exact henqueued.keeps hold
        · exact henqueued.all other hother
      · exact (henqueued.entered other hother).imp_right (List.mem_cons_of_mem _)
    · rename_i hnew
      have hnew : flags.contains target = false := by simpa using hnew
      have henqueued := ih (queue ++ [target]) (flags.insert target) hrest
      have hroom := room_insert (hworld target List.mem_cons_self) hnew
      have hinserted : (flags.insert target).contains target = true :=
        Std.HashSet.contains_insert_self
      have hkept : ∀ {other}, flags.contains other = true →
          (flags.insert target).contains other = true := by
        intro other hother
        simp [Std.HashSet.contains_insert, hother]
      have hmem : ∀ {other}, other ∈ queue ++ [target] ↔ other ∈ queue ∨ other = target := by
        intro other
        rw [List.mem_append, List.mem_singleton]
      refine ⟨?_, fun hother ↦ henqueued.keeps (hkept hother), fun other hother ↦ ?_,
        fun other hother ↦ henqueued.queued other (hmem.2 (.inl hother)),
        fun {other} hother ↦ ?_, fun other hother ↦ ?_, fun hqueue other hother ↦ ?_⟩
      · have hle := henqueued.room_le
        rw [List.length_append, List.length_singleton] at hle
        omega
      · obtain rfl | hother := List.mem_cons.1 hother
        · exact henqueued.keeps hinserted
        · exact henqueued.all other hother
      · obtain hold | hqueued := henqueued.source hother
        · rw [Std.HashSet.contains_insert, Bool.or_eq_true, beq_iff_eq] at hold
          obtain rfl | hold := hold
          · exact .inr (henqueued.queued _ (hmem.2 (.inr rfl)))
          · exact .inl hold
        · exact .inr hqueued
      · obtain hqueue | htarget := henqueued.entered other hother
        · obtain hqueue | rfl := hmem.1 hqueue
          · exact .inl hqueue
          · exact .inr List.mem_cons_self
        · exact .inr (List.mem_cons_of_mem _ htarget)
      · refine henqueued.flagged (fun member hmember ↦ ?_) other hother
        obtain hmember | rfl := hmem.1 hmember
        · exact hkept (hqueue member hmember)
        · exact hinserted

/-- Spreading with enough steps: earlier flags stay and what follows a flag is flagged. -/
theorem spread_spec (hworld : ∀ target following, following ∈ next target → following ∈ world)
    {steps : Nat} (hsteps : queue.length + room world flags ≤ steps)
    (hqueue : ∀ target ∈ queue, flags.contains target = true)
    (hclosed : ∀ {target}, flags.contains target = true → target ∈ queue ∨
      ∀ following ∈ next target, flags.contains following = true) :
    (∀ {target}, flags.contains target = true →
      (spread next steps queue flags).contains target = true) ∧
    ∀ {target}, (spread next steps queue flags).contains target = true →
      ∀ following ∈ next target, (spread next steps queue flags).contains following = true := by
  induction steps generalizing queue flags with
  | zero =>
    cases queue with
    | nil => exact ⟨id, fun hflag ↦ (hclosed hflag).resolve_left List.not_mem_nil⟩
    | cons target queue => simp at hsteps
  | succ steps ih =>
    cases queue with
    | nil =>
      unfold spread
      exact ⟨id, fun hflag ↦ (hclosed hflag).resolve_left List.not_mem_nil⟩
    | cons target queue =>
      have henqueued := enqueue_spec queue flags (hworld target)
      unfold spread
      dsimp only
      generalize (enqueue queue flags (next target)).1 = queue' at henqueued ⊢
      generalize (enqueue queue flags (next target)).2 = flags' at henqueued ⊢
      have hsteps' : queue'.length + room world flags' ≤ steps := by
        have hle := henqueued.room_le
        simp only [List.length_cons] at hsteps
        omega
      have hqueue' := henqueued.flagged fun member hmember ↦
        hqueue member (List.mem_cons_of_mem _ hmember)
      -- A flag that has left the queue has everything that follows it flagged.
      have hclosed' : ∀ {member}, flags'.contains member = true → member ∈ queue' ∨
          ∀ following ∈ next member, flags'.contains following = true := by
        intro member hmember
        obtain hold | hqueued := henqueued.source hmember
        · obtain hqueued | hdone := hclosed hold
          · obtain rfl | hqueued := List.mem_cons.1 hqueued
            · exact .inr henqueued.all
            · exact .inl (henqueued.queued member hqueued)
          · exact .inr fun following hfollowing ↦ henqueued.keeps (hdone following hfollowing)
        · exact .inl hqueued
      obtain ⟨hkeeps, hends⟩ := ih hsteps' hqueue' hclosed'
      exact ⟨fun hflag ↦ hkeeps (henqueued.keeps hflag), hends⟩

/-- Nothing is flagged that does not follow from the flags at the start. -/
theorem spread_least {member : Target → Prop}
    (hnext : ∀ {target}, member target → ∀ following ∈ next target, member following)
    (steps : Nat) (hqueue : ∀ target ∈ queue, member target)
    (hflags : ∀ {target}, flags.contains target = true → member target) {target : Target}
    (htarget : (spread next steps queue flags).contains target = true) : member target := by
  induction steps generalizing queue flags with
  | zero => exact hflags htarget
  | succ steps ih =>
    cases queue with
    | nil => exact hflags htarget
    | cons first queue =>
      have henqueued := enqueue_spec queue flags fun target (hmem : target ∈ next first) ↦ hmem
      have hqueue' : ∀ target ∈ (enqueue queue flags (next first)).1, member target := by
        intro target hmem
        obtain hold | hfollows := henqueued.entered target hmem
        · exact hqueue target (List.mem_cons_of_mem _ hold)
        · exact hnext (hqueue first List.mem_cons_self) target hfollows
      exact ih hqueue' (fun hflag ↦ (henqueued.source hflag).elim hflags (hqueue' _)) htarget

theorem close_spec (hworld : ∀ target following, following ∈ next target → following ∈ world)
    {limit : Nat} (hlimit : world.length ≤ limit) {roots : List Target}
    (hroots : ∀ target ∈ roots, flags.contains target = true)
    (hclosed : ∀ {target}, flags.contains target = true → target ∈ roots ∨
      ∀ following ∈ next target, flags.contains following = true) :
    (∀ {target}, flags.contains target = true →
      (close next limit roots flags).contains target = true) ∧
    ∀ {target}, (close next limit roots flags).contains target = true →
      ∀ following ∈ next target, (close next limit roots flags).contains following = true :=
  spread_spec hworld (Nat.add_le_add_left (Nat.le_trans List.countP_le_length hlimit) _) hroots
    hclosed

end Whence.Closure
