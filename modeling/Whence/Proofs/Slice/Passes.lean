import Whence.Proofs.Coverage
import Whence.Proofs.Slice.Closing
import Whence.Slice.Basic

/-!
# Passes close the flags

A pass moves one mark at a time, and before each move it asks whether the move is still to be made.
Within a slice the answers are known: every user of a flagged target has lost a dependency, and no
move goes back to the mark from which the pass started, so that none is refused.  Hence a slice in
the right direction never fails, and what it flags is the closure of its start along users or along
sources.
-/

namespace Whence

variable {store : Store} {marks : Marks} {target : Target}

namespace Store

theorem mem_nodeIds {node : NodeId} : node ∈ store.nodeIds ↔ store.Contains node := by
  obtain ⟨index⟩ := node
  simp [nodeIds, Contains, size]

theorem contains_of_isKnown {node : NodeId} (hknown : store.isKnown node = true) :
    store.Contains node := by
  cases hknowledge : store.knowledge? node with
  | none => simp [isKnown, hknowledge] at hknown
  | some knowledge => exact contains_of_knowledge hknowledge

theorem Users.mem_add {users : Users} {user node : NodeId} {source target : Target} :
    node ∈ (Users.add user users source).of target ↔
      (node = user ∧ target = source) ∨ node ∈ users.of target := by
  simp only [Users.add, Users.of, Std.HashMap.getD_insert, beq_iff_eq]
  split
  case isTrue hsame =>
    subst hsame
    simp
  case isFalse hother => simp [Ne.symm hother]

theorem Users.mem_addAll {users : Users} {user node : NodeId} {sources : List Target}
    {target : Target} :
    node ∈ (sources.foldl (Users.add user) users).of target ↔
      (node = user ∧ target ∈ sources) ∨ node ∈ users.of target := by
  induction sources generalizing users with
  | nil => simp
  | cons source sources ih =>
    rw [List.foldl_cons, ih, Users.mem_add, List.mem_cons, ← or_assoc, ← and_or_left,
      or_comm (a := target ∈ sources)]

/-- The users of a target are the known nodes that depend on it. -/
theorem mem_users {node : NodeId} {target : Target} :
    node ∈ store.users.of target ↔
      store.isKnown node = true ∧ target ∈ store.dependencies node := by
  have hfold : ∀ nodes : List NodeId,
      node ∈ (nodes.foldr (fun node users ↦ (store.dependencies node).foldl (Users.add node) users)
        ∅ : Users).of target ↔ node ∈ nodes ∧ target ∈ store.dependencies node := by
    intro nodes
    induction nodes with
    | nil => simp [Users.of]
    | cons first nodes ih =>
      rw [List.foldr_cons, Users.mem_addAll, ih, List.mem_cons]
      constructor
      · rintro (⟨rfl, htarget⟩ | ⟨hmem, htarget⟩)
        · exact ⟨.inl rfl, htarget⟩
        · exact ⟨.inr hmem, htarget⟩
      · rintro ⟨rfl | hmem, htarget⟩
        · exact .inl ⟨rfl, htarget⟩
        · exact .inr ⟨hmem, htarget⟩
  rw [users, hfold, knownNodes, List.mem_filter]
  exact and_congr_left fun _ ↦
    and_iff_right_of_imp fun hknown ↦ mem_nodeIds.2 (contains_of_isKnown hknown)

end Store

namespace Marks

/-- The marks after a target has moved. -/
def flag (marks : Marks) (target : Target) : Marks :=
  if marks.isFlagged target then marks
  else { marks with flagged := marks.flagged.insert target }

@[simp] theorem direction_flag : (marks.flag target).direction = marks.direction := by
  unfold flag
  split <;> rfl

theorem isFlagged_flag {other : Target} :
    (marks.flag target).isFlagged other = true ↔
      other = target ∨ marks.isFlagged other = true := by
  unfold flag
  split
  case isTrue hflagged => exact ⟨.inr, fun h ↦ h.elim (· ▸ hflagged) id⟩
  case isFalse =>
    rw [isFlagged, Std.HashSet.contains_insert, Bool.or_eq_true, beq_iff_eq, eq_comm, isFlagged]

theorem mark_of_isFlagged (hflagged : marks.isFlagged target = true) :
    marks.mark target = marks.direction.initial.negate := by
  rw [mark, if_pos hflagged]

theorem mark_of_not_isFlagged (hnew : marks.isFlagged target = false) :
    marks.mark target = marks.direction.initial := by
  rw [mark, if_neg (by simp [hnew])]

/-- To move a target away from the start of the pass is never refused. -/
theorem set_negate : marks.set target marks.direction.initial.negate = .ok (marks.flag target) := by
  have hnegate : ∀ mark : Mark, mark.negate ≠ mark := by
    intro mark
    cases mark <;> decide
  cases hflagged : marks.isFlagged target with
  | true => rw [set, if_pos (mark_of_isFlagged hflagged), flag, if_pos hflagged]
  | false =>
    rw [set, mark_of_not_isFlagged hflagged, if_neg (hnegate _).symm, if_neg (hnegate _), flag,
      if_neg (by simp [hflagged])]

end Marks

namespace Slice

/-- The flags of a pass when it has flagged its roots. -/
def flagAll (marks : Marks) (roots : List Target) : Std.HashSet Target :=
  (roots.foldl Marks.flag marks).flagged

theorem contains_flagAll {roots : List Target} :
    (flagAll marks roots).contains target = true ↔
      target ∈ roots ∨ marks.isFlagged target = true := by
  induction roots generalizing marks with
  | nil => simp [flagAll, Marks.isFlagged]
  | cons root roots ih =>
    change (flagAll (marks.flag root) roots).contains target = true ↔ _
    rw [ih, Marks.isFlagged_flag, List.mem_cons, or_left_comm, or_assoc]

/-- The nodes that lose a dependency together with a target. -/
def losers (users : Store.Users) (target : Target) : List Target :=
  (users.of target).map Target.node

namespace Pass

variable {pass : Pass} {targets : List Target}

/-- Flags the targets that are new and puts them at the end of the queue. -/
def enqueue (pass : Pass) (targets : List Target) : Pass :=
  let entered := Closure.enqueue pass.queue pass.marks.flagged targets
  { marks := { pass.marks with flagged := entered.2 }, queue := entered.1 }

theorem isFlagged_enqueue (hflagged : pass.marks.isFlagged target = true) :
    (pass.enqueue targets).marks.isFlagged target = true :=
  (Closure.enqueue_spec pass.queue pass.marks.flagged fun _ htarget ↦ htarget).keeps hflagged

theorem enqueue_cons :
    pass.enqueue (target :: targets) = (pass.enqueue [target]).enqueue targets := by
  by_cases hflagged : pass.marks.flagged.contains target = true <;>
    simp [enqueue, Closure.enqueue, hflagged]

theorem enqueue_of_isFlagged (hflagged : pass.marks.isFlagged target = true) :
    pass.enqueue [target] = pass := by
  have hcontains : pass.marks.flagged.contains target = true := hflagged
  rw [enqueue, Closure.enqueue, if_pos hcontains]
  rfl

/-- A move away from the start of the pass flags a new target. -/
theorem push_of_new (hnew : pass.marks.isFlagged target = false) :
    pass.push target pass.marks.direction.initial.negate = .ok (pass.enqueue [target]) := by
  have hnot : ¬ pass.marks.isFlagged target = true := by simp [hnew]
  have hnot' : ¬ pass.marks.flagged.contains target = true := hnot
  rw [push, Marks.set_negate, Marks.flag, if_neg hnot, enqueue, Closure.enqueue, if_neg hnot']
  rfl

theorem foldlM_push {mark : Mark} (hmark : mark = pass.marks.direction.initial.negate)
    (roots : List Target) :
    roots.foldlM (fun pass root ↦ pass.push root mark) pass = .ok {
      marks := { pass.marks with flagged := flagAll pass.marks roots }
      queue := pass.queue ++ roots } := by
  induction roots generalizing pass with
  | nil => simp [flagAll, pure, Except.pure]
  | cons root roots ih =>
    have hpush : pass.push root mark =
        .ok { marks := pass.marks.flag root, queue := pass.queue ++ [root] } := by
      rw [hmark, push, Marks.set_negate]
      rfl
    rw [List.foldlM_cons, hpush]
    refine (ih (by simpa using hmark)).trans ?_
    simp [flagAll]

/-- If each visit is to flag one target, visits one after the other flag all of them. -/
theorem foldlM_enqueue {entry : Type} {visit : Pass → entry → Except Error Pass}
    {entries : List entry} (place : entry → Target) (holds : Pass → Prop)
    (hkeeps : ∀ {pass targets}, holds pass → holds (pass.enqueue targets))
    (hvisit : ∀ {pass}, holds pass → ∀ first ∈ entries,
      visit pass first = .ok (pass.enqueue [place first])) (hpass : holds pass) :
    entries.foldlM visit pass = .ok (pass.enqueue (entries.map place)) := by
  induction entries generalizing pass with
  | nil => rfl
  | cons first entries ih =>
    have hentered : holds (pass.enqueue [place first]) := hkeeps hpass
    have hrest := ih (fun hpass next hnext ↦ hvisit hpass next (List.mem_cons_of_mem _ hnext))
      hentered
    rw [List.foldlM_cons, hvisit hpass first List.mem_cons_self]
    exact hrest.trans (congrArg Except.ok enqueue_cons.symm)

/-- If looking at a flagged target is to flag what follows it, the pass spreads its flags.  The
targets in the queue are flagged, whatever the visits before have added. -/
theorem run_eq {visit : Pass → Target → Except Error Pass} {next : Target → List Target}
    {direction : Direction}
    (hvisit : ∀ {pass target}, pass.marks.direction = direction →
      pass.marks.isFlagged target = true → visit pass target = .ok (pass.enqueue (next target)))
    (hdirection : pass.marks.direction = direction)
    (hqueue : ∀ target ∈ pass.queue, pass.marks.isFlagged target = true) (steps : Nat) :
    pass.run visit steps = .ok { pass.marks with
      flagged := Closure.spread next steps pass.queue pass.marks.flagged } := by
  induction steps generalizing pass with
  | zero => rfl
  | succ steps ih =>
    obtain ⟨marks, queue⟩ := pass
    cases queue with
    | nil => rfl
    | cons target queue =>
      have hrest : ∀ target ∈ queue, marks.isFlagged target = true :=
        fun target htarget ↦ hqueue target (List.mem_cons_of_mem _ htarget)
      have hstep : visit { marks, queue } target =
          .ok (enqueue { marks, queue } (next target)) :=
        hvisit hdirection (hqueue target List.mem_cons_self)
      have hqueue' : ∀ member ∈ (enqueue { marks, queue } (next target)).queue,
          (enqueue { marks, queue } (next target)).marks.isFlagged member = true :=
        (Closure.enqueue_spec queue marks.flagged fun _ hnext ↦ hnext).flagged hrest
      unfold run
      dsimp only
      rw [hstep]
      exact ih hdirection hqueue'

end Pass

theorem meet_bot (mark : Mark) : mark.meet .bot = .bot := by
  cases mark <;> rfl

/-- A node that has lost a dependency is not available. -/
theorem availability_eq_bot {node : NodeId} (hmark : marks.mark target = .bot)
    (htarget : target ∈ store.dependencies node) : availability marks store node = .bot := by
  have hstays : ∀ targets : List Target,
      targets.foldl (fun mark target ↦ Mark.meet mark (marks.mark target)) .bot = .bot := by
    intro targets
    induction targets with
    | nil => rfl
    | cons first targets ih => exact ih
  obtain ⟨before, after, hsplit⟩ := List.append_of_mem htarget
  rw [availability, hsplit, List.foldl_append, List.foldl_cons, hmark, meet_bot]
  exact hstays after

/-- A user of a flagged target is flagged. -/
theorem lose_eq {pass : Pass} {node : NodeId} (hdirection : pass.marks.direction = .forward)
    (hflagged : pass.marks.isFlagged target = true) (htarget : target ∈ store.dependencies node) :
    lose store pass node = .ok (pass.enqueue [.node node]) := by
  have hbot : ∀ {target}, pass.marks.isFlagged target = true → pass.marks.mark target = .bot := by
    intro target hflagged
    rw [Marks.mark_of_isFlagged hflagged, hdirection]
    rfl
  cases hnode : pass.marks.isFlagged (.node node) with
  | true =>
    rw [lose, if_pos (hbot hnode), Pass.enqueue_of_isFlagged hnode]
    rfl
  | false =>
    have htop : pass.marks.mark (.node node) = .top := by
      rw [Marks.mark_of_not_isFlagged hnode, hdirection]
      rfl
    have havailability := availability_eq_bot (hbot hflagged) htarget
    have hpush := Pass.push_of_new hnode
    rw [hdirection] at hpush
    rw [lose, htop, if_neg (by decide), havailability, if_pos rfl]
    exact hpush

/-- A forward pass closes its flags along users. -/
theorem forward_eq (hdirection : marks.direction = .forward) (store : Store)
    (roots : List Target) :
    forward marks store roots = .ok { marks with
      flagged := Closure.close (losers store.users) store.size (marks.flagged.toList ++ roots)
        (flagAll marks roots) } := by
  have hvisit : ∀ {pass : Pass} {target}, pass.marks.direction = .forward →
      pass.marks.isFlagged target = true →
      (store.users.of target).foldlM (lose store) pass =
        .ok (pass.enqueue (losers store.users target)) := by
    intro pass target hforward hflagged
    refine Pass.foldlM_enqueue Target.node
      (fun pass ↦ pass.marks.direction = .forward ∧ pass.marks.isFlagged target = true)
      (fun hpass ↦ ⟨hpass.1, Pass.isFlagged_enqueue hpass.2⟩) (fun hpass node hnode ↦ ?_)
      ⟨hforward, hflagged⟩
    exact lose_eq hpass.1 hpass.2 (Store.mem_users.1 hnode).2
  have hstart : ∀ target ∈ marks.flagged.toList ++ roots,
      (flagAll marks roots).contains target = true := by
    intro target htarget
    rw [List.mem_append, Std.HashSet.mem_toList, ← Std.HashSet.contains_iff_mem, or_comm] at htarget
    exact contains_flagAll.2 htarget
  rw [forward, expectDirection, if_pos hdirection]
  dsimp only [bind, Except.bind]
  rw [Pass.foldlM_push (by rw [hdirection]; rfl)]
  exact Pass.run_eq hvisit hdirection hstart _

/-- A source is needed afterwards, and looked at if it was not needed before. -/
theorem need_eq {pass : Pass} (hdirection : pass.marks.direction = .backward) (source : Target) :
    need pass source = .ok (pass.enqueue [source]) := by
  cases hflagged : pass.marks.isFlagged source with
  | true =>
    have htop : pass.marks.mark source = .top := by
      rw [Marks.mark_of_isFlagged hflagged, hdirection]
      rfl
    rw [need, htop, if_neg (by decide), Pass.enqueue_of_isFlagged hflagged]
    rfl
  | false =>
    have hbot : pass.marks.mark source = .bot := by
      rw [Marks.mark_of_not_isFlagged hflagged, hdirection]
      rfl
    have hpush := Pass.push_of_new hflagged
    rw [hdirection] at hpush
    rw [need, hbot, if_pos rfl]
    exact hpush

/-- A backward pass closes what it flags along sources, from the roots. -/
theorem backward_eq (hdirection : marks.direction = .backward) (store : Store)
    (roots : List Target) :
    backward marks store roots = .ok { marks with
      flagged := Closure.close (sources store) (2 * store.size) roots (flagAll marks roots) } := by
  have hvisit : ∀ {pass : Pass} {target}, pass.marks.direction = .backward →
      pass.marks.isFlagged target = true →
      (sources store target).foldlM need pass = .ok (pass.enqueue (sources store target)) := by
    intro pass target hbackward hflagged
    have hall := Pass.foldlM_enqueue id (fun pass ↦ pass.marks.direction = .backward) id
      (fun hpass source (_ : source ∈ sources store target) ↦ need_eq hpass source) hbackward
    rwa [List.map_id] at hall
  have hstart : ∀ target ∈ roots, (flagAll marks roots).contains target = true :=
    fun target htarget ↦ contains_flagAll.2 (.inl htarget)
  rw [backward, expectDirection, if_pos hdirection]
  dsimp only [bind, Except.bind]
  rw [Pass.foldlM_push (by rw [hdirection]; rfl)]
  exact Pass.run_eq hvisit hdirection hstart _

end Slice

end Whence
