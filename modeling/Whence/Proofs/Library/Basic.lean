import Whence.Proofs.Reachability

/-!
# Nodes of the library

The library belongs to the store, but what is known of its nodes belongs to revisions.  The node of
a primitive is made when the primitive is first asked for, and its value is an entry of the revision
that asked.  No operation but an update of the node changes that.
-/

namespace Whence

variable {primitive : Primitive}

/-- The history of a library node that was made in the given revision. -/
def Primitive.history (primitive : Primitive) (home : Revision) : History :=
  ⟨[(home, .of .given (.primitive primitive.value))], []⟩

theorem Primitive.history_injective (primitive : Primitive) {home other : Revision}
    (hhistory : primitive.history home = primitive.history other) : home = other := by
  cases hhistory
  rfl

theorem Primitive.visible?_history (primitive : Primitive) (home : Revision)
    (lineage : List Revision) :
    (primitive.history home).visible? lineage =
      if lineage.contains home then some (.of .given (.primitive primitive.value)) else none := by
  induction lineage with
  | nil => rfl
  | cons first rest ih =>
    rw [History.visible?] at ih ⊢
    rw [List.findSome?_cons, ih, history, History.lookup_cons, List.lookup_nil]
    by_cases hfirst : first = home
    · simp [hfirst]
    · simp [hfirst, Ne.symm hfirst]

/-- The first thing that is written to a node is entered. -/
theorem History.commit_empty (lineage : List Revision) (revision : Revision)
    {knowledge : Knowledge} (hblank : knowledge.isBlank = false) :
    ({} : History).commit lineage revision knowledge = .ok ⟨[(revision, knowledge)], []⟩ := by
  have hvisible : ({} : History).visible? lineage = none := by simp [visible?]
  simp [commit, hblank, written, record, hvisible, enter, dropEcho, pure, Except.pure, bind,
    Except.bind]

namespace Store

variable {store middle final : Store} {node : NodeId} {address : Address} {knowledge : Knowledge}
  {value : Value}

/-- Addresses and nodes determine each other, and inputs are named after their nodes. -/
structure Named (store : Store) : Prop where
  ids : ∀ {address node}, store.lookup? address = some node ↔
    store.Contains node ∧ store.address node = address
  inputs : ∀ {node source}, store.Contains node → store.address node = .input source →
    source = node

namespace Named

theorem allot (hnamed : store.Named) (hlookup : store.lookup? address = none)
    (hinput : ∀ source, address = .input source → source = ⟨store.size⟩) :
    (store.allot address).Named where
  ids := allot_ids hnamed.ids hlookup
  inputs {node source} hnode haddress := by
    by_cases hindex : node.index = store.size
    · rw [Store.address, node_allot, if_pos hindex] at haddress
      rw [hinput source haddress, ← hindex]
    · have hold : store.Contains node := by
        rw [Contains, size_allot] at hnode
        exact Nat.lt_of_le_of_ne (Nat.le_of_lt_succ hnode) hindex
      rw [address_allot_of_contains hold] at haddress
      exact hnamed.inputs hold haddress

theorem setHistory (hnamed : store.Named) (hnode : store.Contains node) (history : History) :
    (store.setHistory node history).Named where
  ids {address other} := by
    rw [address_setHistory hnode, Contains, size_setHistory]
    exact hnamed.ids
  inputs {other source} hother haddress := by
    rw [address_setHistory hnode] at haddress
    rw [Contains, size_setHistory] at hother
    exact hnamed.inputs hother haddress

/-- The address of the next input is free. -/
theorem lookup_next_input (hnamed : store.Named) :
    store.lookup? (.input ⟨store.size⟩) = none := by
  cases hlookup : store.lookup? (.input ⟨store.size⟩) with
  | none => rfl
  | some node =>
    obtain ⟨hnode, haddress⟩ := hnamed.ids.1 hlookup
    rw [← hnamed.inputs hnode haddress] at hnode
    exact absurd hnode (Nat.lt_irrefl _)

/-- Taking in a value succeeds, and it is the first thing that is known of its node. -/
theorem input_eq (hnamed : store.Named) (value : Value) :
    input value store = .ok ⟨store.size⟩
      ((store.allot (.input ⟨store.size⟩)).setHistory ⟨store.size⟩
        ⟨[(store.current, .of .given value)], []⟩) := by
  have hfree := hnamed.lookup_next_input
  have hlookup : (store.allot (.input ⟨store.size⟩)).lookup? (.input ⟨store.size⟩) =
      some ⟨store.size⟩ := by rw [lookup?_allot, if_pos rfl]
  have hnode : (store.allot (.input ⟨store.size⟩)).node ⟨store.size⟩ =
      { address := .input ⟨store.size⟩ } := by rw [node_allot, if_pos rfl]
  have hrevised : (store.allot (.input ⟨store.size⟩)).revised ⟨store.size⟩ (.of .given value) =
      .ok ⟨[(store.current, .of .given value)], []⟩ := by
    rw [revised, hnode]
    exact History.commit_empty _ _ rfl
  have hfresh : store.fresh = (⟨store.size⟩, store.allot (.input ⟨store.size⟩)) :=
    register_of_none hfree
  rw [Store.input_eq, hfresh, address, hnode, write_eq, register_of_lookup hlookup]
  simp only [hrevised]

end Named

/-- Each library node has the one entry that was made with it. -/
structure Stocked (store : Store) : Prop extends Named store where
  library : ∀ {primitive node}, (primitive, node) ∈ store.library →
    store.Contains node ∧ store.address node = .input node ∧
      ∃ home, (store.node node).history = primitive.history home

/-- Library nodes stay in the library, and their histories stay as they are. -/
structure Keeps (store final : Store) : Prop where
  stocked : final.Stocked
  library : ∃ added, final.library = store.library ++ added
  history : ∀ {primitive node}, (primitive, node) ∈ store.library →
    (final.node node).history = (store.node node).history

theorem Stocked.empty : empty.Stocked where
  ids := by simp [lookup?, Contains, size, Store.empty]
  inputs hnode := absurd hnode (Nat.not_lt_zero _)
  library hmem := by cases hmem

namespace Keeps

theorem refl (hstocked : store.Stocked) : store.Keeps store :=
  ⟨hstocked, ⟨[], (List.append_nil _).symm⟩, fun _ ↦ rfl⟩

theorem trans (hfirst : store.Keeps middle) (hsecond : middle.Keeps final) : store.Keeps final := by
  obtain ⟨added, hadded⟩ := hfirst.library
  obtain ⟨added', hadded'⟩ := hsecond.library
  refine ⟨hsecond.stocked, ⟨added ++ added', by rw [hadded', hadded, List.append_assoc]⟩,
    fun {primitive node} hmem ↦ ?_⟩
  have hmem' : (primitive, node) ∈ middle.library := hadded ▸ List.mem_append_left _ hmem
  rw [hsecond.history hmem', hfirst.history hmem]

theorem lookup (hkeeps : store.Keeps final) (hlookup : store.library.lookup primitive = some node) :
    final.library.lookup primitive = some node := by
  obtain ⟨added, hadded⟩ := hkeeps.library
  rw [hadded, List.lookup_append, hlookup, Option.some_or]

end Keeps

namespace Stocked

/-- Environments and revisions are no concern of the library. -/
theorem keeps_frame (hstocked : store.Stocked) (envs : Environments) (revisions : Revisions) :
    store.Keeps { store with envs, revisions } where
  stocked := ⟨⟨hstocked.ids, hstocked.inputs⟩, hstocked.library⟩
  library := ⟨[], (List.append_nil _).symm⟩
  history _ := rfl

theorem keeps_allot (hstocked : store.Stocked) (hlookup : store.lookup? address = none)
    (hinput : ∀ source, address = .input source → source = ⟨store.size⟩) :
    store.Keeps (store.allot address) := by
  have hhistory (node : NodeId) :
      ((store.allot address).node node).history = (store.node node).history := by
    have hsame := history_register store address node
    rwa [register_of_none hlookup] at hsame
  refine ⟨⟨hstocked.toNamed.allot hlookup hinput, fun {primitive node} hmem ↦ ?_⟩,
    ⟨[], (List.append_nil _).symm⟩, fun _ ↦ hhistory _⟩
  obtain ⟨hnode, haddress, home, hhome⟩ := hstocked.library hmem
  refine ⟨?_, (address_allot_of_contains hnode).trans haddress, home, (hhistory node).trans hhome⟩
  rw [Contains, size_allot]
  exact Nat.lt_succ_of_lt hnode

theorem keeps_register (hstocked : store.Stocked) (env : EnvId) (expr : ExprId) :
    store.Keeps (store.register (.evaluation env expr)).2 := by
  cases hlookup : store.lookup? (.evaluation env expr) with
  | some node =>
    rw [register_of_lookup hlookup]
    exact .refl hstocked
  | none =>
    rw [register_of_none hlookup]
    exact hstocked.keeps_allot hlookup fun source hsource ↦ by cases hsource

/-- Only the histories of library nodes matter. -/
theorem keeps_setHistory (hstocked : store.Stocked) (hnode : store.Contains node)
    (hlibrary : ∀ primitive, (primitive, node) ∉ store.library) (history : History) :
    store.Keeps (store.setHistory node history) := by
  have hhistory {primitive : Primitive} {other : NodeId}
      (hmem : (primitive, other) ∈ store.library) :
      ((store.setHistory node history).node other).history = (store.node other).history := by
    rw [node_setHistory hnode, if_neg]
    rintro rfl
    exact hlibrary primitive hmem
  refine ⟨⟨hstocked.toNamed.setHistory hnode history, fun {primitive other} hmem ↦ ?_⟩,
    ⟨[], (List.append_nil _).symm⟩, hhistory⟩
  rw [address_setHistory hnode, Contains, size_setHistory, hhistory hmem]
  exact hstocked.library hmem

/-- A write to a node outside the library is no concern of the library. -/
theorem keeps_write (hregister : store.Keeps (store.register address).2)
    (hlibrary : ∀ primitive, (primitive, (store.register address).1) ∉
      (store.register address).2.library) (knowledge : Knowledge) :
    store.Keeps (stateAfter (write address knowledge) store) := by
  rw [stateAfter, write_eq]
  cases (store.register address).2.revised (store.register address).1 knowledge with
  | ok history =>
    have hnode := (hregister.stocked.ids.1 (lookup?_register store address)).1
    exact hregister.trans (hregister.stocked.keeps_setHistory hnode hlibrary history)
  | error conflict => exact hregister

theorem keeps_write_evaluation (hstocked : store.Stocked) (env : EnvId) (expr : ExprId)
    (knowledge : Knowledge) :
    store.Keeps (stateAfter (write (.evaluation env expr) knowledge) store) := by
  have hregister := hstocked.keeps_register env expr
  refine keeps_write hregister (fun primitive hmem ↦ ?_) knowledge
  obtain ⟨-, haddress, -⟩ := hregister.stocked.library hmem
  rw [(hregister.stocked.ids.1 (lookup?_register store (.evaluation env expr))).2] at haddress
  cases haddress

theorem keeps_update (hstocked : store.Stocked) (hnode : store.Contains node)
    (hlibrary : store.isLibrary node = false) (value : Value) :
    store.Keeps (stateAfter (update node value) store) := by
  have hregister : store.register (store.address node) = (node, store) :=
    register_of_lookup (hstocked.ids.2 ⟨hnode, rfl⟩)
  have hwrite : store.Keeps (stateAfter (write (store.address node) (.of .given value)) store) := by
    refine keeps_write ?_ (fun primitive hmem ↦ ?_) _
    · rw [hregister]
      exact .refl hstocked
    · rw [hregister] at hmem
      rw [isLibrary, List.any_eq_false] at hlibrary
      exact hlibrary _ hmem (beq_self_eq_true _)
  rw [stateAfter] at hwrite
  rw [stateAfter, update_eq]
  cases hrun : write (store.address node) (.of .given value) store <;>
  · rw [hrun] at hwrite
    exact hwrite

theorem keeps_input (hstocked : store.Stocked) (value : Value) :
    store.Keeps (stateAfter (input value) store) := by
  have hallot := hstocked.keeps_allot hstocked.lookup_next_input fun source hsource ↦ by
    cases hsource
    rfl
  rw [stateAfter, hstocked.input_eq]
  refine hallot.trans (hallot.stocked.keeps_setHistory ?_ (fun primitive hmem ↦ ?_) _)
  · simp [Contains, size_allot]
  · exact absurd (hstocked.library hmem).1 (Nat.lt_irrefl _)

end Stocked

/-- The node of a primitive may be listed in the library. -/
theorem Keeps.note (hkeeps : store.Keeps final) (hnode : final.Contains node)
    (haddress : final.address node = .input node) {home : Revision}
    (hhistory : (final.node node).history = primitive.history home) :
    store.Keeps { final with library := final.library ++ [(primitive, node)] } where
  stocked := by
    refine ⟨⟨hkeeps.stocked.ids, hkeeps.stocked.inputs⟩, fun {other held} hmem ↦ ?_⟩
    obtain hmem | hmem := List.mem_append.1 hmem
    · exact hkeeps.stocked.library hmem
    · cases List.mem_singleton.1 hmem
      exact ⟨hnode, haddress, home, hhistory⟩
  library := by
    obtain ⟨added, hadded⟩ := hkeeps.library
    exact ⟨added ++ [(primitive, node)], by rw [hadded, List.append_assoc]⟩
  history := hkeeps.history

/-- What asking for a primitive comes to.  Its node has one entry, which is one of the current
revision if nobody asked before. -/
structure Asked (store : Store) (primitive : Primitive) (node : NodeId) (home : Revision)
    (final : Store) : Prop where
  run : Store.primitive primitive store = .ok node final
  keeps : store.Keeps final
  lookup : final.library.lookup primitive = some node
  history : (final.node node).history = primitive.history home
  first : store.library.lookup primitive = none → home = store.current
  others : ∀ {other}, other ≠ primitive → final.library.lookup other = store.library.lookup other
  envs : final.envs = store.envs
  revisions : final.revisions = store.revisions

theorem Stocked.primitive_spec (hstocked : store.Stocked) (primitive : Primitive) :
    ∃ node home final, store.Asked primitive node home final := by
  cases hlookup : store.library.lookup primitive with
  | some node =>
    obtain ⟨-, -, home, hhome⟩ := hstocked.library (Environments.mem_of_lookup hlookup)
    refine ⟨node, home, store, primitive_of_some hlookup, .refl hstocked, hlookup, hhome, ?_,
      fun _ ↦ rfl, rfl, rfl⟩
    intro hnone
    rw [hlookup] at hnone
    cases hnone
  | none =>
    have hkeeps := hstocked.keeps_input (.primitive primitive.value)
    have hinput := hstocked.input_eq (.primitive primitive.value)
    rw [stateAfter, hinput] at hkeeps
    dsimp only at hkeeps
    have hallotted : (store.allot (.input ⟨store.size⟩)).Contains ⟨store.size⟩ := by
      simp [Contains, size_allot]
    have hnode := node_setHistory hallotted (primitive.history store.current) ⟨store.size⟩
    rw [if_pos rfl, node_allot, if_pos rfl] at hnode
    refine ⟨⟨store.size⟩, store.current, _, by rw [primitive_of_none hlookup, hinput],
      hkeeps.note ?_ ?_ (congrArg Node.history hnode), ?_, congrArg Node.history hnode,
      fun _ ↦ rfl, fun {other} hother ↦ ?_, rfl, rfl⟩
    · rwa [Contains, size_setHistory]
    · exact congrArg Node.address hnode
    · change (store.library ++ [(primitive, (⟨store.size⟩ : NodeId))]).lookup primitive = _
      rw [List.lookup_append, hlookup, Option.none_or, List.lookup_cons_self]
    · change (store.library ++ [(primitive, (⟨store.size⟩ : NodeId))]).lookup other = _
      rw [List.lookup_append, List.lookup_cons, beq_eq_false_iff_ne.2 hother, List.lookup_nil,
        Option.or_none]

end Store

end Whence
