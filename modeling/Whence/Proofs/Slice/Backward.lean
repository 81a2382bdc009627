import Whence.Proofs.Slice.Passes

/-!
# Backward slices

After a backward slice everything that dependencies lead to from the roots is needed, and so are the
expressions from which the needed nodes were evaluated.
-/

namespace Whence

variable {store : Store}

namespace Slice

/-- All that a node of the store may have been computed from. -/
def world (store : Store) : List Target :=
  store.nodeIds.map .node ++
    store.nodeIds.filterMap fun node ↦ (store.address node).expr?.map Target.expr

theorem length_world_le (store : Store) : (world store).length ≤ 2 * store.size := by
  have hle : (store.nodeIds.filterMap fun node ↦
      (store.address node).expr?.map Target.expr).length ≤ store.nodeIds.length :=
    List.length_filterMap_le _ _
  have hsize : store.nodeIds.length = store.size := by simp [Store.nodeIds, Store.size]
  rw [world, List.length_append, List.length_map]
  omega

theorem sources_world (target following : Target) (hfollowing : following ∈ sources store target) :
    following ∈ world store := by
  cases target with
  | expr id => cases hfollowing
  | node id =>
    simp only [sources, Store.dependencies, List.mem_append, List.mem_map, Option.mem_toList,
      List.mem_eraseDups, List.mem_filter] at hfollowing
    rw [world, List.mem_append]
    obtain ⟨expr, hexpr, rfl⟩ | ⟨node, ⟨-, hcounts⟩, rfl⟩ := hfollowing
    · refine .inr (List.mem_filterMap.2 ⟨id, ?_, by simp_all⟩)
      refine Store.mem_nodeIds.2 ?_
      apply Classical.byContradiction
      intro hcontains
      rw [Store.address, Store.node_eq_default hcontains] at hexpr
      cases hexpr
    · rw [Store.counts, Bool.and_eq_true] at hcounts
      have hnode := Store.mem_nodeIds.2 (Store.contains_of_isKnown hcounts.1)
      exact .inl (List.mem_map.2 ⟨node, hnode, rfl⟩)

/-- What is needed after a first backward slice. -/
structure Needs (store : Store) (roots : List Target) (marks : Marks) : Prop where
  start : ∀ root ∈ roots, marks.isNeeded root = true
  sources : ∀ {target}, marks.isNeeded target = true →
    ∀ source ∈ sources store target, marks.isNeeded source = true
  least : ∀ {member : Target → Prop}, (∀ root ∈ roots, member root) →
    (∀ {target}, member target → ∀ source ∈ Slice.sources store target, member source) →
    ∀ {target}, marks.isNeeded target = true → member target

theorem backward_spec (store : Store) (roots : List Target) :
    ∃ marks, backward (.start .backward) store roots = .ok marks ∧ Needs store roots marks := by
  have hflags : ∀ {target}, (flagAll (.start .backward) roots).contains target = true →
      target ∈ roots := by
    intro target htarget
    obtain hroot | hflagged := contains_flagAll.1 htarget
    · exact hroot
    · simp [Marks.isFlagged, Marks.start] at hflagged
  have hroots : ∀ root ∈ roots, (flagAll (.start .backward) roots).contains root = true :=
    fun root hroot ↦ contains_flagAll.2 (.inl hroot)
  obtain ⟨hkeeps, hcloses⟩ := Closure.close_spec sources_world (length_world_le store) hroots
    fun htarget ↦ .inl (hflags htarget)
  refine ⟨_, backward_eq rfl store roots, ⟨fun root hroot ↦ ?_, fun {target} htarget source hsource ↦ ?_,
    fun {member} hmember hnext {target} htarget ↦ ?_⟩⟩
  · exact hkeeps (hroots root hroot)
  · exact hcloses htarget source hsource
  · exact Closure.spread_least hnext _ hmember (fun hflag ↦ hmember _ (hflags hflag)) htarget

namespace Needs

variable {roots : List Target} {marks : Marks} {node other : NodeId}

/-- Dependencies lead from needed nodes to needed nodes. -/
theorem of_reaches (hneeds : Needs store roots marks) (hnode : marks.isNeeded (.node node) = true)
    (hreaches : Reaches store node other) : marks.isNeeded (.node other) = true := by
  induction hreaches with
  | refl => exact hnode
  | step hnext hcounts _ ih =>
    refine ih (hneeds.sources hnode _ ?_)
    refine List.mem_append_right _ (List.mem_map.2 ⟨_, ?_, rfl⟩)
    exact List.mem_eraseDups.2 (List.mem_filter.2 ⟨hnext, hcounts⟩)

/-- The expression of a needed node is needed. -/
theorem expr (hneeds : Needs store roots marks) (hnode : marks.isNeeded (.node node) = true)
    {env : EnvId} {expr : ExprId} (haddress : store.address node = .evaluation env expr) :
    marks.isNeeded (.expr expr) = true := by
  refine hneeds.sources hnode _ (List.mem_append_left _ ?_)
  simp [haddress, Address.expr?]

end Needs

end Slice

end Whence
