import Mathlib.Data.List.Chain
import Mathlib.Data.List.Nodup
import Mathlib.Data.List.Perm.Subperm
import Whence.Proofs.Derivation.Basic

/-!
# Parts of values

The parts of a constructor are nodes, which may have values with parts of their own.  A chain of parts
that never comes back to where it has been is no longer than the store is big, so a value that is
there to the bottom has its bottom within the size of the store.
-/

namespace Whence

open Relation

variable {store : Store}

namespace Store

/-- Forcing the value of the one node leads to the other. -/
def IsPart (store : Store) (whole part : NodeId) : Prop :=
  ∃ value, store.value? whole = some value ∧ part ∈ value.parts

/-- Some value is `count` parts deep. -/
def IsDeep (store : Store) (count : Nat) : Prop :=
  ∃ node path, count ≤ path.length ∧ (node :: path).IsChain store.IsPart

/-- Some value is a part of itself. -/
def IsCyclic (store : Store) : Prop := ∃ node, TransGen store.IsPart node node

theorem IsPart.contains {whole part : NodeId} (hpart : store.IsPart whole part) :
    store.Contains whole := by
  obtain ⟨value, hvalue, -⟩ := hpart
  exact contains_of_value hvalue

theorem IsDeep.mono {count fewer : Nat} (hdeep : store.IsDeep count) (hle : fewer ≤ count) :
    store.IsDeep fewer := by
  obtain ⟨node, path, hlength, hchain⟩ := hdeep
  exact ⟨node, path, Nat.le_trans hle hlength, hchain⟩

theorem contains_of_mem_dropLast {node other : NodeId} {path : List NodeId}
    (hchain : (node :: path).IsChain store.IsPart) (hmem : other ∈ (node :: path).dropLast) :
    store.Contains other := by
  induction path generalizing node with
  | nil => cases hmem
  | cons next path ih =>
    obtain ⟨hpart, hrest⟩ := List.isChain_cons_cons.1 hchain
    obtain rfl | hmem := List.mem_cons.1 hmem
    · exact hpart.contains
    · exact ih hrest hmem

/-- A chain of parts that does not come back to where it has been is no longer than the store. -/
theorem length_le_of_chain {path : List NodeId} (hchain : path.IsChain store.IsPart)
    (hcontains : ∀ node ∈ path, store.Contains node)
    (hacyclic : ∀ node ∈ path, ¬TransGen store.IsPart node node) : path.length ≤ store.size := by
  have hpairwise : path.Pairwise (TransGen store.IsPart) :=
    List.isChain_iff_pairwise.1 (hchain.imp fun _ _ ↦ .single)
  have hnodup : path.Nodup := by
    refine hpairwise.imp_of_mem ?_
    rintro first _ hfirst - hpath rfl
    exact hacyclic first hfirst hpath
  have hindices : (path.map NodeId.index).Nodup :=
    hnodup.map fun first second hindex ↦ by
      cases first
      cases second
      exact congrArg NodeId.mk hindex
  have hrange : path.map NodeId.index ⊆ List.range store.size := by
    intro index hindex
    obtain ⟨other, hother, rfl⟩ := List.mem_map.1 hindex
    exact List.mem_range.2 (hcontains other hother)
  have hle := (List.subperm_of_subset hindices hrange).length_le
  rwa [List.length_map, List.length_range] at hle

/-- A chain of parts that is longer than the store is big comes back to where it has been. -/
theorem IsDeep.isCyclic_or_le {count : Nat} (hdeep : store.IsDeep count) :
    store.IsCyclic ∨ count ≤ store.size := by
  obtain ⟨node, path, hlength, hchain⟩ := hdeep
  by_cases hcyclic : store.IsCyclic
  · exact .inl hcyclic
  · have hle := length_le_of_chain hchain.dropLast
      (fun _ hmem ↦ contains_of_mem_dropLast hchain hmem) fun other _ hpath ↦ hcyclic ⟨other, hpath⟩
    rw [List.length_dropLast, List.length_cons] at hle
    exact .inr (Nat.le_trans hlength hle)

/-- Forcing the node takes fewer than `steps` steps from part to part and finds all values there. -/
def EndsWithin (store : Store) : Nat → NodeId → Prop
  | 0, _ => False
  | steps + 1, node =>
    ∃ value, store.value? node = some value ∧ ∀ part ∈ value.parts, store.EndsWithin steps part

theorem EndsWithin.succ {steps : Nat} {node : NodeId} (hends : store.EndsWithin steps node) :
    store.EndsWithin (steps + 1) node := by
  induction steps generalizing node with
  | zero => exact hends.elim
  | succ steps ih =>
    obtain ⟨value, hvalue, hparts⟩ := hends
    exact ⟨value, hvalue, fun part hpart ↦ ih (hparts part hpart)⟩

theorem EndsWithin.mono {steps more : Nat} {node : NodeId} (hends : store.EndsWithin steps node)
    (hle : steps ≤ more) : store.EndsWithin more node := by
  induction hle with
  | refl => exact hends
  | step _ ih => exact ih.succ

end Store

namespace Forced

variable {allowed : NodeId → Prop} {node : NodeId}

theorem contains (hforced : Forced store allowed node) : store.Contains node := by
  cases hforced with
  | intro _ hvalue _ => exact Store.contains_of_value hvalue

theorem of_isPart {part : NodeId} (hforced : Forced store allowed node)
    (hpart : store.IsPart node part) : Forced store allowed part := by
  cases hforced with
  | intro _ hvalue hparts =>
    obtain ⟨value, hvalue', hmem⟩ := hpart
    rw [hvalue] at hvalue'
    cases hvalue'
    exact hparts part hmem

/-- What is there to the bottom is no part of itself. -/
theorem not_transGen (hforced : Forced store allowed node) : ¬TransGen store.IsPart node node := by
  induction hforced with
  | intro _ hvalue _ ih =>
    intro hcycle
    obtain ⟨first, ⟨value, hvalue', hmem⟩, hrest⟩ := TransGen.head'_iff.1 hcycle
    rw [hvalue] at hvalue'
    cases hvalue'
    -- A cycle through the node is one through its part as well.
    exact ih first hmem (TransGen.tail' hrest ⟨_, hvalue, hmem⟩)

theorem of_mem_chain {path : List NodeId} {other : NodeId} (hforced : Forced store allowed node)
    (hchain : (node :: path).IsChain store.IsPart) (hmem : other ∈ node :: path) :
    Forced store allowed other := by
  induction path generalizing node with
  | nil =>
    cases List.mem_singleton.1 hmem
    exact hforced
  | cons next path ih =>
    obtain ⟨hpart, hrest⟩ := List.isChain_cons_cons.1 hchain
    obtain rfl | hmem := List.mem_cons.1 hmem
    · exact hforced
    · exact ih (hforced.of_isPart hpart) hrest hmem

theorem endsWithin_of_chains {steps : Nat} (hforced : Forced store allowed node)
    (hchains : ∀ path, (node :: path).IsChain store.IsPart → path.length < steps) :
    store.EndsWithin steps node := by
  induction steps generalizing node with
  | zero => exact absurd (hchains [] (.singleton node)) (Nat.not_lt_zero _)
  | succ steps ih =>
    cases hforced with
    | intro _ hvalue hparts =>
      refine ⟨_, hvalue, fun part hpart ↦ ih (hparts part hpart) fun path hchain ↦ ?_⟩
      exact Nat.lt_of_succ_lt_succ (hchains (part :: path) (.cons_cons ⟨_, hvalue, hpart⟩ hchain))

/-- What is there to the bottom has its bottom within the size of the store. -/
theorem endsWithin (hforced : Forced store allowed node) : store.EndsWithin store.size node :=
  hforced.endsWithin_of_chains fun _ hchain ↦
    Store.length_le_of_chain hchain (fun _ hmem ↦ (hforced.of_mem_chain hchain hmem).contains)
      fun _ hmem ↦ (hforced.of_mem_chain hchain hmem).not_transGen

end Forced

end Whence
