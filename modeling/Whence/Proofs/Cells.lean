import Mathlib.Data.Finset.Card
import Whence.Proofs.RootStore
import Whence.View.Basic

/-!
# Chains of cells

The elements of a list are collected by a walk along the tails of its cells that stops where it has
been before.  A walk meets no more nodes than the store holds, so a bound of that size changes
nothing: the elements are found when the chain has an end, and only then.
-/

namespace Whence

namespace Store

variable {store : Store}

/-- The nodes of the store outside a set of visited ones. -/
def unvisited (store : Store) (visited : Std.HashSet NodeId) : Finset ℕ :=
  (Finset.range store.size).filter fun index ↦ (⟨index⟩ : NodeId) ∉ visited

theorem card_unvisited_le (visited : Std.HashSet NodeId) :
    (store.unvisited visited).card ≤ store.size :=
  (Finset.card_filter_le _ _).trans_eq (Finset.card_range _)

theorem card_unvisited_mono {visited visited' : Std.HashSet NodeId}
    (hvisited : ∀ node ∈ visited, node ∈ visited') :
    (store.unvisited visited').card ≤ (store.unvisited visited).card := by
  refine Finset.card_le_card fun index hindex ↦ ?_
  obtain ⟨hindex, hfresh⟩ := Finset.mem_filter.1 hindex
  exact Finset.mem_filter.2 ⟨hindex, fun hmem ↦ hfresh (hvisited _ hmem)⟩

theorem card_unvisited_insert {visited : Std.HashSet NodeId} {node : NodeId}
    (hnode : store.Contains node) (hfresh : node ∉ visited) :
    (store.unvisited (visited.insert node)).card < (store.unvisited visited).card := by
  refine Finset.card_lt_card (Finset.ssubset_iff_of_subset ?_ |>.2 ⟨node.index, ?_, ?_⟩)
  · intro index hindex
    grind [unvisited]
  · exact Finset.mem_filter.2 ⟨Finset.mem_range.2 hnode, hfresh⟩
  · exact fun hindex ↦ (Finset.mem_filter.1 hindex).2 Std.HashSet.mem_insert_self

/-- A chain of cells from a node to an end, with the heads of its cells. -/
inductive IsList (store : Store) : NodeId → List NodeId → Prop
  | nil {node : NodeId} {args : List NodeId}
      (hvalue : store.value? node = some (.constructor .nilTag args)) : IsList store node []
  | cons {node head tail : NodeId} {items : List NodeId}
      (hvalue : store.value? node = some (.constructor .consTag [head, tail]))
      (htail : IsList store tail items) : IsList store node (head :: items)

/-- A node is an end, a cell or neither. -/
theorem cell_cases (store : Store) (node : NodeId) :
    (∃ args, store.value? node = some (.constructor .nilTag args)) ∨
      (∃ head tail, store.value? node = some (.constructor .consTag [head, tail])) ∨
      ((∀ args, store.value? node ≠ some (.constructor .nilTag args)) ∧
        ∀ head tail, store.value? node ≠ some (.constructor .consTag [head, tail])) := by
  by_cases hnil : ∃ args, store.value? node = some (.constructor .nilTag args)
  · exact .inl hnil
  by_cases hcons : ∃ head tail, store.value? node = some (.constructor .consTag [head, tail])
  · exact .inr (.inl hcons)
  · exact .inr (.inr ⟨fun args hvalue ↦ hnil ⟨args, hvalue⟩,
      fun head tail hvalue ↦ hcons ⟨head, tail, hvalue⟩⟩)

theorem IsList.unique {node : NodeId} {items items' : List NodeId} (hlist : store.IsList node items)
    (hlist' : store.IsList node items') : items' = items := by
  induction hlist generalizing items' with
  | nil hvalue =>
    cases hlist' with
    | nil _ => rfl
    | cons hvalue' _ => cases hvalue.symm.trans hvalue'
  | cons hvalue _ ih =>
    cases hlist' with
    | nil hvalue' => cases hvalue.symm.trans hvalue'
    | cons hvalue' htail' =>
      cases hvalue.symm.trans hvalue'
      rw [ih htail']

/-- A walk from a node along the tails, with the elements it finds if it comes to an end.  It stops
where it has been before, and the number of its steps has no bound. -/
inductive Collects (store : Store) : Std.HashSet NodeId → NodeId → Option (List NodeId) → Prop
  | again {visited : Std.HashSet NodeId} {node : NodeId} (hvisited : node ∈ visited) :
      Collects store visited node none
  | nil {visited : Std.HashSet NodeId} {node : NodeId} {args : List NodeId}
      (hfresh : node ∉ visited)
      (hvalue : store.value? node = some (.constructor .nilTag args)) :
      Collects store visited node (some [])
  | cons {visited : Std.HashSet NodeId} {node head tail : NodeId} {items? : Option (List NodeId)}
      (hfresh : node ∉ visited)
      (hvalue : store.value? node = some (.constructor .consTag [head, tail]))
      (htail : Collects store (visited.insert node) tail items?) :
      Collects store visited node (items?.map (head :: ·))
  | other {visited : Std.HashSet NodeId} {node : NodeId} (hfresh : node ∉ visited)
      (hnil : ∀ args, store.value? node ≠ some (.constructor .nilTag args))
      (hcons : ∀ head tail, store.value? node ≠ some (.constructor .consTag [head, tail])) :
      Collects store visited node none

namespace Collects

variable {visited : Std.HashSet NodeId} {node : NodeId} {items : List NodeId}
  {items? items?' : Option (List NodeId)}

theorem unique (hcollects : store.Collects visited node items?)
    (hcollects' : store.Collects visited node items?') : items?' = items? := by
  induction hcollects generalizing items?' with
  | again hvisited => cases hcollects' <;> first | rfl | contradiction
  | nil hfresh hvalue =>
    cases hcollects' with
    | again hvisited' => exact absurd hvisited' hfresh
    | nil => rfl
    | cons _ hvalue' => cases hvalue.symm.trans hvalue'
    | other _ hnil' => exact absurd hvalue (hnil' _)
  | cons hfresh hvalue _ ih =>
    cases hcollects' with
    | again hvisited' => exact absurd hvisited' hfresh
    | nil _ hvalue' => cases hvalue.symm.trans hvalue'
    | cons _ hvalue' htail' =>
      cases hvalue.symm.trans hvalue'
      rw [ih htail']
    | other _ _ hcons' => exact absurd hvalue (hcons' _ _)
  | other hfresh hnil hcons =>
    cases hcollects' with
    | again => rfl
    | nil _ hvalue' => exact absurd hvalue' (hnil _)
    | cons _ hvalue' => exact absurd hvalue' (hcons _ _)
    | other => rfl

/-- Every walk stops: each step visits a node of the store that was not visited before. -/
theorem exists_of (store : Store) (visited : Std.HashSet NodeId) (node : NodeId) :
    ∃ items?, store.Collects visited node items? := by
  induction hcount : (store.unvisited visited).card using Nat.strongRecOn generalizing visited node
    with
  | ind count ih =>
    by_cases hvisited : node ∈ visited
    · exact ⟨none, .again hvisited⟩
    obtain ⟨args, hvalue⟩ | ⟨head, tail, hvalue⟩ | ⟨hnil, hcons⟩ := store.cell_cases node
    · exact ⟨some [], .nil hvisited hvalue⟩
    · have hless := card_unvisited_insert (contains_of_value hvalue) hvisited
      obtain ⟨items?, htail⟩ := ih _ (hcount ▸ hless) _ tail rfl
      exact ⟨_, .cons hvisited hvalue htail⟩
    · exact ⟨none, .other hvisited hnil hcons⟩

/-- What a walk finds are the heads of a chain with an end, which is shorter than the number of
nodes that were not visited before. -/
theorem isList (hcollects : store.Collects visited node items?) (hitems : items? = some items) :
    store.IsList node items ∧ items.length < (store.unvisited visited).card := by
  induction hcollects generalizing items with
  | again | other => cases hitems
  | nil hfresh hvalue =>
    cases hitems
    exact ⟨.nil hvalue, Nat.zero_lt_of_lt (card_unvisited_insert (contains_of_value hvalue) hfresh)⟩
  | cons hfresh hvalue _ ih =>
    obtain ⟨rest, hrest, rfl⟩ := Option.map_eq_some_iff.1 hitems
    obtain ⟨hlist, hlength⟩ := ih hrest
    have hless := card_unvisited_insert (contains_of_value hvalue) hfresh
    exact ⟨.cons hvalue hlist, Nat.lt_of_le_of_lt hlength hless⟩

end Collects

/-- A walk along a chain with an end finds its elements, since the chain does not come back to where
longer chains start. -/
theorem IsList.collects {visited : Std.HashSet NodeId} {node : NodeId} {items : List NodeId}
    (hlist : store.IsList node items)
    (hlonger : ∀ other ∈ visited, ∀ items', store.IsList other items' →
      items.length < items'.length) : store.Collects visited node (some items) := by
  induction hlist generalizing visited with
  | nil hvalue =>
    exact .nil (fun hvisited ↦ Nat.lt_irrefl _ (hlonger _ hvisited _ (.nil hvalue))) hvalue
  | @cons node head tail items hvalue htail ih =>
    have hlist : store.IsList node (head :: items) := .cons hvalue htail
    refine .cons (fun hvisited ↦ Nat.lt_irrefl _ (hlonger _ hvisited _ hlist)) hvalue (ih ?_)
    intro other hother items' hlist'
    obtain hother | hother := Std.HashSet.mem_insert.1 hother
    · cases beq_iff_eq.1 hother
      rw [hlist.unique hlist']
      exact Nat.lt_succ_self _
    · exact Nat.lt_of_succ_lt (hlonger other hother items' hlist')

theorem IsList.collects_empty {node : NodeId} {items : List NodeId}
    (hlist : store.IsList node items) : store.Collects ∅ node (some items) :=
  hlist.collects fun _ hother ↦ absurd hother Std.HashSet.not_mem_empty

end Store

namespace View

open Store

variable {store : Store} {node head tail : NodeId} {items : List NodeId}

theorem listItems?_nil {args : List NodeId}
    (hvalue : store.value? node = some (.constructor .nilTag args)) (cells : ℕ) :
    listItems? store (cells + 1) node = some [] := by
  simp [listItems?, hvalue]

theorem listItems?_cons
    (hvalue : store.value? node = some (.constructor .consTag [head, tail])) (cells : ℕ) :
    listItems? store (cells + 1) node = (listItems? store cells tail).map (head :: ·) := by
  simp [listItems?, hvalue, Symbol.consTag, Symbol.nilTag]

theorem listItems?_other (hnil : ∀ args, store.value? node ≠ some (.constructor .nilTag args))
    (hcons : ∀ head tail, store.value? node ≠ some (.constructor .consTag [head, tail]))
    (cells : ℕ) : listItems? store cells node = none := by
  cases cells with
  | zero => rfl
  | succ cells =>
    unfold listItems?
    grind

theorem listItems?_of_isList (hlist : store.IsList node items) {cells : ℕ}
    (hcells : items.length < cells) : listItems? store cells node = some items := by
  obtain ⟨cells, rfl⟩ := Nat.exists_eq_add_one_of_ne_zero (Nat.ne_zero_of_lt hcells)
  induction hlist generalizing cells with
  | nil hvalue => exact listItems?_nil hvalue cells
  | cons hvalue _ ih =>
    obtain ⟨cells, rfl⟩ := Nat.exists_eq_add_one_of_ne_zero
      (Nat.ne_zero_of_lt (Nat.lt_of_succ_lt_succ hcells))
    rw [listItems?_cons hvalue, ih _ (Nat.lt_of_succ_lt_succ hcells)]
    rfl

theorem isList_of_listItems? {cells : ℕ} (hitems : listItems? store cells node = some items) :
    store.IsList node items := by
  induction cells generalizing node items with
  | zero => cases hitems
  | succ cells ih =>
    obtain ⟨args, hvalue⟩ | ⟨head, tail, hvalue⟩ | ⟨hnil, hcons⟩ := store.cell_cases node
    · rw [listItems?_nil hvalue] at hitems
      cases hitems
      exact .nil hvalue
    · rw [listItems?_cons hvalue] at hitems
      obtain ⟨rest, hrest, rfl⟩ := Option.map_eq_some_iff.1 hitems
      exact .cons hvalue (ih hrest)
    · rw [listItems?_other hnil hcons] at hitems
      cases hitems

/-- The elements are those that a walk without bound finds. -/
theorem collects_listItems? (store : Store) (node : NodeId) :
    store.Collects ∅ node (listItems? store store.size node) := by
  cases hitems : listItems? store store.size node with
  | some items => exact (isList_of_listItems? hitems).collects_empty
  | none =>
    obtain ⟨items?, hcollects⟩ := Collects.exists_of store ∅ node
    cases items? with
    | none => exact hcollects
    | some items =>
      obtain ⟨hlist, hlength⟩ := hcollects.isList rfl
      rw [listItems?_of_isList hlist (hlength.trans_le (card_unvisited_le _))] at hitems
      cases hitems

end View

end Whence
