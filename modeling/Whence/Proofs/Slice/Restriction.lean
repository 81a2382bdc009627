import Whence.Proofs.Slice.Duality

/-!
# Restricting flags to a computation

Restricting the flags to a node keeps those on what the node is made of and on what it was computed
from, however far away.  A backward slice flags nothing else, and a forward slice reaches a node
along the same way backwards, so that the explanation of a result is never lost.
-/

namespace Whence

open Relation

namespace Slice

variable {store : Store}

/-- The value of the target is made of the part. -/
def Composing (store : Store) (target part : Target) : Prop := part ∈ parts store target

/-- The target is made of the other one or was computed from it. -/
def Involving (store : Store) (target other : Target) : Prop :=
  Composing store target other ∨ Needing store target other

/-- Only a node of the store has a value. -/
theorem contains_of_composing {target part : Target} (hcomposing : Composing store target part) :
    ∃ node, target = .node node ∧ store.Contains node := by
  cases target with
  | expr id => cases hcomposing
  | node id =>
    obtain ⟨child, hchild, -⟩ := List.mem_map.1 hcomposing
    cases hvalue : store.value? id with
    | none => simp [Store.children, hvalue] at hchild
    | some value => exact ⟨id, rfl, Store.contains_of_value hvalue⟩

/-- A node that the store did not hand out has neither an expression nor references. -/
theorem contains_of_needing {target source : Target} (hneeding : Needing store target source) :
    ∃ node, target = .node node ∧ store.Contains node := by
  cases target with
  | expr id => cases hneeding
  | node id =>
    refine ⟨id, rfl, ?_⟩
    apply Classical.byContradiction
    intro hnode
    have hknowledge : store.knowledge? id = none := by
      rw [Store.knowledge?, Store.knowledgeAt?, Store.node_eq_default hnode]
      simp [default, History.visible?]
    have hnothing : sources store (.node id) = [] := by
      simp [sources, Store.dependencies, Store.references, Store.children, Store.value?_eq,
        Store.explanation?, hknowledge, Store.address, Store.node_eq_default hnode, Address.expr?,
        default]
    rw [Needing, hnothing] at hneeding
    cases hneeding

/-- Exactly the flags are kept that are reached from the root, if only nodes of the store lead on. -/
theorem retain_isFlagged {next : Target → List Target}
    (hnext : ∀ {target following}, following ∈ next target →
      ∃ node, target = .node node ∧ store.Contains node)
    (marks : Marks) (root : NodeId) (target : Target) :
    (retain marks store next root).isFlagged target = true ↔ marks.isFlagged target = true ∧
      ReflTransGen (fun target following ↦ following ∈ next target) (.node root) target := by
  let start : Target := .node root
  let world := store.nodeIds.flatMap fun node ↦ next (.node node)
  let reached := Closure.close next world.length [start] {start}
  have hworld : ∀ target following, following ∈ next target → following ∈ world := by
    intro target following hfollowing
    obtain ⟨node, rfl, hnode⟩ := hnext hfollowing
    exact List.mem_flatMap.2 ⟨node, Store.mem_nodeIds.2 hnode, hfollowing⟩
  have hstart : ∀ {target}, ({start} : Std.HashSet Target).contains target = true ↔
      target ∈ [start] := by
    intro target
    change ((∅ : Std.HashSet Target).insert start).contains target = true ↔ _
    rw [Std.HashSet.contains_insert, Bool.or_eq_true, beq_iff_eq, List.mem_singleton]
    simp only [Std.HashSet.contains_empty, Bool.false_eq_true, or_false]
    exact eq_comm
  obtain ⟨hkeeps, hcloses⟩ := Closure.close_spec hworld (Nat.le_refl world.length)
    (fun target htarget ↦ hstart.2 htarget) fun htarget ↦ .inl (hstart.1 htarget)
  have hreached : reached.contains target = true ↔
      ReflTransGen (fun target following ↦ following ∈ next target) start target := by
    constructor
    · apply Closure.spread_least
      · exact fun hpath following hfollowing ↦ hpath.tail hfollowing
      · intro other hother
        rw [List.mem_singleton.1 hother]
      · intro other hother
        rw [List.mem_singleton.1 (hstart.1 hother)]
    · intro hpath
      induction hpath with
      | refl => exact hkeeps (hstart.2 List.mem_cons_self)
      | tail _ hfollowing ih => exact hcloses ih _ hfollowing
  calc (retain marks store next root).isFlagged target = true
    _ ↔ marks.isFlagged target = true ∧ reached.contains target = true := by
      simp only [Marks.isFlagged, Std.HashSet.contains_iff_mem]
      refine Std.HashSet.mem_filter.trans ?_
      simp only [Std.HashSet.get_eq, exists_prop]
      rfl
    _ ↔ _ := and_congr_right fun _ ↦ hreached

theorem restrict_isFlagged (marks : Marks) (store : Store) (root : NodeId) (target : Target) :
    (restrict marks store root).isFlagged target = true ↔
      marks.isFlagged target = true ∧ ReflTransGen (Involving store) (.node root) target := by
  let next : Target → List Target := fun target ↦ parts store target ++ sources store target
  have hinvolving : (fun target following ↦ following ∈ next target) = Involving store := by
    funext target following
    exact propext List.mem_append
  rw [← hinvolving]
  apply retain_isFlagged
  intro target following hfollowing
  apply (List.mem_append.1 hfollowing).elim
  · exact contains_of_composing
  · exact contains_of_needing

theorem restrictToValues_isFlagged (marks : Marks) (store : Store) (root : NodeId)
    (target : Target) :
    (restrictToValues marks store root).isFlagged target = true ↔
      marks.isFlagged target = true ∧ ReflTransGen (Composing store) (.node root) target :=
  retain_isFlagged contains_of_composing marks root target

/-- What loses a dependency together with a target was computed from the target. -/
theorem involving_of_losing {target user : Target} (hpath : ReflTransGen (Losing store) target user) :
    ReflTransGen (Involving store) user target := by
  induction hpath with
  | refl => exact .refl
  | tail _ hlosing ih =>
    obtain ⟨-, -, -, hneeding⟩ := losing_iff.1 hlosing
    exact ih.head (.inr hneeding)

end Slice

namespace Session

/-- Drops the flags of a session that lie outside the value of a node. -/
def restrictToValues (root : NodeId) : InSession Unit :=
  remark fun marks store ↦ .ok (Slice.restrictToValues marks store root)

theorem restrict_eq (session : Session) (root : NodeId) : restrict root session =
    .ok () { session with marks := Slice.restrict session.marks session.store root } := rfl

theorem restrictToValues_eq (session : Session) (root : NodeId) : restrictToValues root session =
    .ok () { session with marks := Slice.restrictToValues session.marks session.store root } := rfl

/-- A backward slice from a node flags nothing that restricting to the node would drop. -/
theorem restrict_of_sliceBackward (session : Session) (node : NodeId) :
    ∃ needed kept, (do reset .backward; sliceBackward [.node node]) session = .ok () needed ∧
      restrict node needed = .ok () kept ∧
      ∀ target, kept.marks.isNeeded target = needed.marks.isNeeded target := by
  obtain ⟨marks, hbackward, hneeded⟩ := Slice.backward_isNeeded session.store [.node node]
  refine ⟨_, _, remark_of_reset session hbackward, restrict_eq _ node, fun target ↦ ?_⟩
  apply Bool.eq_iff_iff.2
  calc (Slice.restrict marks session.store node).isNeeded target = true
    _ ↔ marks.isNeeded target = true ∧
        ReflTransGen (Slice.Involving session.store) (.node node) target := by
      simp only [Marks.isNeeded, Bool.and_eq_true, Slice.restrict_isFlagged, ← and_assoc]
      rfl
    _ ↔ marks.isNeeded target = true := by
      apply and_iff_left_of_imp
      intro hneed
      obtain ⟨root, hroot, hpath⟩ := (hneeded target).1 hneed
      rw [List.mem_singleton.1 hroot] at hpath
      exact ReflTransGen.mono (fun _ _ hneeding ↦ Or.inr hneeding) _ _ hpath

/-- What is unavailable after a forward slice stays so, and so does one of the roots. -/
theorem restrict_of_sliceForward (session : Session) (roots : List Target) (node : NodeId) :
    ∃ lost kept, (do reset .forward; sliceForward roots) session = .ok () lost ∧
      restrict node lost = .ok () kept ∧
      (lost.marks.isAvailable (.node node) = false → kept.marks.isAvailable (.node node) = false ∧
        ∃ root ∈ roots, kept.marks.isAvailable root = false) := by
  obtain ⟨marks, hforward, hdirection, hflagged⟩ :=
    Slice.forward_isFlagged (.start .forward) rfl session.store roots
  have hunavailable : ∀ {marks : Marks} {target : Target}, marks.direction = .forward →
      (marks.isAvailable target = false ↔ marks.isFlagged target = true) := by
    intro marks target hdirection
    simp [Marks.isAvailable, hdirection]
  refine ⟨_, _, remark_of_reset session hforward, restrict_eq _ node, fun hlost ↦ ?_⟩
  have hlost : marks.isFlagged (.node node) = true := (hunavailable hdirection).1 hlost
  have hkept : (Slice.restrict marks session.store node).direction = .forward := hdirection
  obtain ⟨root, hroot, hpath⟩ := (hflagged (.node node)).1 hlost
  have hroot : root ∈ roots := hroot.resolve_right (by simp [Marks.isFlagged, Marks.start])
  refine ⟨(hunavailable hkept).2 ?_, root, hroot, (hunavailable hkept).2 ?_⟩
  · exact (Slice.restrict_isFlagged marks session.store node _).2 ⟨hlost, .refl⟩
  · apply (Slice.restrict_isFlagged marks session.store node root).2
    exact ⟨(hflagged root).2 ⟨root, .inl hroot, .refl⟩, Slice.involving_of_losing hpath⟩

/-- Restricting to a node keeps exactly the flags on what can be reached from the node by going to
parts and sources, or to parts alone, and leaves the direction as it is.  So it keeps all that a
backward slice from the node has found to be needed, and if a forward slice has made the node
unavailable, it keeps the node and one of the roots unavailable. -/
theorem restrict_keeps_computation (session : Session) (root : NodeId) :
    (∃ kept, restrict root session = .ok () kept ∧ kept.store = session.store ∧
      kept.marks.direction = session.marks.direction ∧
      ∀ target, kept.marks.isFlagged target = true ↔ session.marks.isFlagged target = true ∧
        ReflTransGen (Slice.Involving session.store) (.node root) target) ∧
    (∃ kept, restrictToValues root session = .ok () kept ∧ kept.store = session.store ∧
      kept.marks.direction = session.marks.direction ∧
      ∀ target, kept.marks.isFlagged target = true ↔ session.marks.isFlagged target = true ∧
        ReflTransGen (Slice.Composing session.store) (.node root) target) ∧
    (∃ needed kept, (do reset .backward; sliceBackward [.node root]) session = .ok () needed ∧
      restrict root needed = .ok () kept ∧
      ∀ target, kept.marks.isNeeded target = needed.marks.isNeeded target) ∧
    ∀ roots, ∃ lost kept, (do reset .forward; sliceForward roots) session = .ok () lost ∧
      restrict root lost = .ok () kept ∧
      (lost.marks.isAvailable (.node root) = false → kept.marks.isAvailable (.node root) = false ∧
        ∃ start ∈ roots, kept.marks.isAvailable start = false) := by
  refine ⟨⟨_, restrict_eq session root, rfl, rfl, ?_⟩,
    ⟨_, restrictToValues_eq session root, rfl, rfl, ?_⟩, restrict_of_sliceBackward session root,
    fun roots ↦ restrict_of_sliceForward session roots root⟩
  · exact Slice.restrict_isFlagged session.marks session.store root
  · exact Slice.restrictToValues_isFlagged session.marks session.store root

end Session

end Whence
