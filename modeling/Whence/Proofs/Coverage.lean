import Whence.Proofs.Soundness
import Whence.Slice.Dependency

/-!
# Coverage

A node reaches another one if dependencies lead from it to the other.  An evaluation covers what it
does: every node that it comes to know is reached from its result.
-/

namespace Whence

variable {program : Program} {store store' store'' : Store} {node other : NodeId}

/-- Dependencies lead from the first node to the second. -/
inductive Reaches (store : Store) : NodeId → NodeId → Prop
  | refl {node : NodeId} : Reaches store node node
  | step {node next target : NodeId} : next ∈ store.references node → store.counts next = true →
      Reaches store next target → Reaches store node target

/-- An evaluated node that the second store knows and the first one does not. -/
structure New (store store' : Store) (node : NodeId) : Prop where
  address : ∃ env expr, store'.address node = .evaluation env expr
  known : ∃ value, store'.value? node = some value
  unknown : store.value? node = none

/-- Every new node is reached from one of the roots. -/
def Covers (store store' : Store) (roots : List NodeId) : Prop :=
  ∀ node, New store store' node → ∃ root ∈ roots, Reaches store' root node

namespace Store

theorem references_of_unknown (hunknown : store.knowledge? node = none) :
    store.references node = [] := by
  simp [references, children, explanation?, value?_eq, hunknown]

theorem references_of_knowledge {explanation : Explanation} {value : Value}
    (hknown : store.knowledge? node = some (.of explanation value)) :
    store.references node = value.children ++ explanation.dependencies := by
  simp [references, children, explanation?, value?_of_knowledge hknown, hknown, Knowledge.of]

theorem Grows.references (hgrows : store.Grows store') {next : NodeId}
    (hnext : next ∈ store.references node) (hrooted : store.Rooted) :
    next ∈ store'.references node := by
  cases hknown : store.knowledge? node with
  | none =>
    rw [references_of_unknown hknown] at hnext
    cases hnext
  | some knowledge =>
    obtain ⟨explanation, value, rfl⟩ := hrooted.full hknown
    rwa [references_of_knowledge (hgrows.knowledge hknown), ← references_of_knowledge hknown]

theorem Grows.counts (hgrows : store.Grows store') (hcounts : store.counts node = true) :
    store'.counts node = true := by
  simp only [Store.counts, Bool.and_eq_true] at hcounts ⊢
  exact ⟨hgrows.isKnown hcounts.1, by rw [hgrows.isLibrary]; exact hcounts.2⟩

end Store

namespace Reaches

theorem grow (hrooted : store.Rooted) (hgrows : store.Grows store')
    (hreaches : Reaches store node other) : Reaches store' node other := by
  induction hreaches with
  | refl => exact .refl
  | step hnext hcounts _ ih =>
    exact .step (hgrows.references hnext hrooted) (hgrows.counts hcounts) ih

end Reaches

namespace Covers

theorem of_knowledge_eq (hsame : ∀ node, store'.knowledge? node = store.knowledge? node)
    (roots : List NodeId) : Covers store store' roots := by
  intro node hnew
  obtain ⟨value, hvalue⟩ := hnew.known
  have hunknown := hnew.unknown
  rw [Store.value?_eq, ← hsame, ← Store.value?_eq, hvalue] at hunknown
  cases hunknown

theorem refl (store : Store) (roots : List NodeId) : Covers store store roots :=
  of_knowledge_eq (fun _ ↦ rfl) roots

theorem withEnvs (store : Store) (envs : Environments) (roots : List NodeId) :
    Covers store { store with envs } roots := by
  refine of_knowledge_eq (fun node ↦ ?_) roots
  rfl

theorem mono {roots roots' : List NodeId} (hcovers : Covers store store' roots)
    (hsubset : ∀ root ∈ roots, root ∈ roots') : Covers store store' roots' := by
  intro node hnew
  obtain ⟨root, hroot, hreaches⟩ := hcovers _ hnew
  exact ⟨root, hsubset root hroot, hreaches⟩

theorem trans {roots roots' : List NodeId} (hrooted : store'.Rooted)
    (hsecond : store'.Grows store'') (hcovers : Covers store store' roots)
    (hcovers' : Covers store' store'' roots') : Covers store store'' (roots ++ roots') := by
  intro node hnew
  cases hvalue : store'.value? node with
  | none =>
    obtain ⟨root, hroot, hreaches⟩ := hcovers' _ ⟨hnew.address, hnew.known, hvalue⟩
    exact ⟨root, List.mem_append_right _ hroot, hreaches⟩
  | some value =>
    obtain ⟨env, expr, haddress⟩ := hnew.address
    rw [hsecond.address_eq (Store.contains_of_value hvalue)] at haddress
    obtain ⟨root, hroot, hreaches⟩ := hcovers _ ⟨⟨env, expr, haddress⟩, ⟨value, hvalue⟩, hnew.unknown⟩
    exact ⟨root, List.mem_append_left _ hroot, hreaches.grow hrooted hsecond⟩

/-- A library node refers to nothing. -/
theorem references_of_library (htidy : Tidy program store)
    (hlibrary : store.isLibrary node = true) : store.references node = [] := by
  obtain ⟨⟨primitive, node'⟩, hmem, hnode⟩ := List.any_eq_true.1 hlibrary
  have hsame : node' = node := eq_of_beq hnode
  subst hsame
  rw [Store.references_of_knowledge (htidy.library hmem).1]
  cases primitive <;> rfl

theorem counts_of_evaluation (htidy : Tidy program store) {env : EnvId} {expr : ExprId}
    (haddress : store.address node = .evaluation env expr) {value : Value}
    (hvalue : store.value? node = some value) : store.counts node = true := by
  simp only [Store.counts, Bool.and_eq_true]
  refine ⟨htidy.isKnown_iff.2 ⟨value, hvalue⟩, ?_⟩
  cases hlibrary : store.isLibrary node with
  | false => rfl
  | true =>
    obtain ⟨⟨primitive, node'⟩, hmem, hnode⟩ := List.any_eq_true.1 hlibrary
    have hsame : node' = node := eq_of_beq hnode
    subst hsame
    rw [(htidy.library hmem).2] at haddress
    cases haddress

/-- What is covered by the references of a node is covered by the node. -/
theorem through {roots : List NodeId} (htidy : Tidy program store')
    (hcovers : Covers store store' roots)
    (hroots : ∀ root ∈ roots, root = node ∨ root ∈ store'.references node) :
    Covers store store' [node] := by
  intro target hnew
  obtain ⟨root, hroot, hreaches⟩ := hcovers _ hnew
  refine ⟨node, List.mem_singleton_self node, ?_⟩
  obtain rfl | hreference := hroots root hroot
  · exact hreaches
  cases hreaches with
  | refl =>
    obtain ⟨env, expr, haddress⟩ := hnew.address
    obtain ⟨value, hvalue⟩ := hnew.known
    exact .step hreference (counts_of_evaluation htidy haddress hvalue) .refl
  | step hnext hcounts hrest =>
    -- A root that refers to something is known, and it is not in the library.
    refine .step hreference ?_ (.step hnext hcounts hrest)
    simp only [Store.counts, Bool.and_eq_true]
    constructor
    · cases hknown : store'.knowledge? root with
      | none =>
        rw [Store.references_of_unknown hknown] at hnext
        cases hnext
      | some knowledge =>
        obtain ⟨explanation, value, rfl⟩ := htidy.full hknown
        exact htidy.isKnown_iff.2 ⟨value, Store.value?_of_knowledge hknown⟩
    · cases hlibrary : store'.isLibrary root with
      | false => rfl
      | true =>
        rw [references_of_library htidy hlibrary] at hnext
        cases hnext

theorem enter (hrooted : store.Rooted) (hnode : store.Contains node) (knowledge : Knowledge) :
    Covers store (store.enter node knowledge) [node] := by
  intro target hnew
  refine ⟨node, List.mem_singleton_self node, ?_⟩
  by_cases hsame : node = target
  · subst hsame
    exact .refl
  · obtain ⟨value, hvalue⟩ := hnew.known
    rw [Store.value?_eq, Store.knowledge?_enter hrooted hnode, if_neg hsame, ← Store.value?_eq,
      hnew.unknown] at hvalue
    cases hvalue

end Covers

end Whence
