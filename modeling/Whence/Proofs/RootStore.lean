import Whence.Proofs.Environments
import Whence.Proofs.Merging
import Whence.Proofs.Stopping
import Whence.Store.Basic

/-!
# The store before its first revision

Until a revision is opened, the history of a node is empty or a single entry, and addresses and
nodes determine each other.  A write then either enters the first knowledge about a node or, if it
brings nothing new, leaves the store as it is.
-/

namespace Whence

/-- The history of a node of which one revision alone has been written. -/
def History.ofKnowledge : Option Knowledge → History
  | none => {}
  | some knowledge => ⟨[(.root, knowledge)], []⟩

namespace Store

variable {store store' store'' : Store} {node other : NodeId} {address : Address}
  {knowledge : Knowledge}

/-- The node has been handed out. -/
def Contains (store : Store) (node : NodeId) : Prop := node.index < store.size

/-- The second store holds all that the first one holds, under the same numbers. -/
structure Grows (store store' : Store) : Prop where
  size_le : store.size ≤ store'.size
  address_eq : ∀ {node}, store.Contains node → store'.address node = store.address node
  lookup : ∀ {address node}, store.lookup? address = some node →
    store'.lookup? address = some node
  knowledge : ∀ {node knowledge}, store.knowledge? node = some knowledge →
    store'.knowledge? node = some knowledge
  envs : store.envs.Grows store'.envs
  library : store'.library = store.library

/-- The store is in order and no revision has been opened. -/
structure Rooted (store : Store) : Prop where
  revisions : store.revisions = {}
  ids : ∀ {address node}, store.lookup? address = some node ↔
    store.Contains node ∧ store.address node = address
  history : ∀ node, (store.node node).history = .ofKnowledge (store.knowledge? node)
  full : ∀ {node knowledge}, store.knowledge? node = some knowledge →
    ∃ explanation value, knowledge = .of explanation value
  envs : store.envs.Canonical

namespace Grows

theorem refl (store : Store) : Grows store store :=
  ⟨Nat.le_refl _, fun _ ↦ rfl, id, id, .refl _, rfl⟩

theorem contains (hgrows : Grows store store') (hnode : store.Contains node) :
    store'.Contains node :=
  Nat.lt_of_lt_of_le hnode hgrows.size_le

theorem trans (hfirst : Grows store store') (hsecond : Grows store' store'') :
    Grows store store'' where
  size_le := Nat.le_trans hfirst.size_le hsecond.size_le
  address_eq hnode := by
    rw [hsecond.address_eq (hfirst.contains hnode), hfirst.address_eq hnode]
  lookup hlookup := hsecond.lookup (hfirst.lookup hlookup)
  knowledge hknown := hsecond.knowledge (hfirst.knowledge hknown)
  envs := hfirst.envs.trans hsecond.envs
  library := hsecond.library.trans hfirst.library

theorem value (hgrows : Grows store store') {value : Value}
    (hvalue : store.value? node = some value) : store'.value? node = some value := by
  simp only [value?, valueAt?] at hvalue ⊢
  obtain ⟨knowledge, hknown, hknowledge⟩ := Option.bind_eq_some_iff.1 hvalue
  change store.knowledge? node = some knowledge at hknown
  change (store'.knowledge? node).bind Knowledge.value = some value
  rw [hgrows.knowledge hknown, Option.bind_some, hknowledge]

theorem isKnown (hgrows : Grows store store') (hknown : store.isKnown node = true) :
    store'.isKnown node = true := by
  simp only [Store.isKnown, Option.any_eq_true] at hknown ⊢
  obtain ⟨knowledge, hknowledge, hblank⟩ := hknown
  exact ⟨knowledge, hgrows.knowledge hknowledge, hblank⟩

theorem isLibrary (hgrows : Grows store store') : store'.isLibrary node = store.isLibrary node := by
  rw [Store.isLibrary, hgrows.library, Store.isLibrary]

end Grows

theorem value?_eq (store : Store) (node : NodeId) :
    store.value? node = (store.knowledge? node).bind Knowledge.value := rfl

theorem value?_of_knowledge {explanation : Explanation} {value : Value}
    (hknown : store.knowledge? node = some (.of explanation value)) :
    store.value? node = some value := by
  rw [value?_eq, hknown]
  rfl

/-- Without a revision that was opened, what is known about a node is the entry of the first one. -/
theorem knowledge?_of_revisions (hrevisions : store.revisions = {}) (node : NodeId) :
    store.knowledge? node = (store.node node).history.entries.lookup .root := by
  have hlineage : store.revisions.lineage store.current = [.root] := by
    rw [Store.current, hrevisions]
    rfl
  simp only [knowledge?, knowledgeAt?, hlineage, History.visible?, List.findSome?]
  cases (store.node node).history.entries.lookup .root <;> rfl

theorem node_eq_default (hnode : ¬store.Contains node) : store.node node = default := by
  simp only [Contains, size] at hnode
  simp [Store.node, Array.getElem?_eq_none (Nat.le_of_not_lt hnode)]

theorem contains_of_knowledge (hknown : store.knowledge? node = some knowledge) :
    store.Contains node := by
  apply Classical.byContradiction
  intro hnode
  have hvisible : (default : Node).history.visible? (store.revisions.lineage store.current) =
      some knowledge := by
    simpa only [knowledge?, knowledgeAt?, node_eq_default hnode] using hknown
  have hnothing : (default : Node).history.visible? (store.revisions.lineage store.current) =
      none := by
    simp [default, History.visible?]
  rw [hnothing] at hvisible
  cases hvisible

theorem contains_of_value {value : Value} (hvalue : store.value? node = some value) :
    store.Contains node := by
  obtain ⟨knowledge, hknown, -⟩ := Option.bind_eq_some_iff.1 hvalue
  exact contains_of_knowledge hknown

namespace Rooted

theorem lineage (hrooted : store.Rooted) :
    store.revisions.lineage store.current = [.root] ∧ store.current = .root := by
  rw [Store.current, hrooted.revisions]
  exact ⟨rfl, rfl⟩

theorem contains_of_lookup (hrooted : store.Rooted) (hlookup : store.lookup? address = some node) :
    store.Contains node :=
  (hrooted.ids.1 hlookup).1

theorem address_of_lookup (hrooted : store.Rooted) (hlookup : store.lookup? address = some node) :
    store.address node = address :=
  (hrooted.ids.1 hlookup).2

theorem lookup_address (hrooted : store.Rooted) (hnode : store.Contains node) :
    store.lookup? (store.address node) = some node :=
  hrooted.ids.2 ⟨hnode, rfl⟩

theorem knowledge_of_value (hrooted : store.Rooted) {value : Value}
    (hvalue : store.value? node = some value) :
    ∃ explanation, store.knowledge? node = some (.of explanation value) := by
  rw [value?_eq] at hvalue
  obtain ⟨knowledge, hknown, hknowledge⟩ := Option.bind_eq_some_iff.1 hvalue
  obtain ⟨explanation, value', rfl⟩ := hrooted.full hknown
  cases hknowledge
  exact ⟨explanation, hknown⟩

theorem isKnown_iff (hrooted : store.Rooted) :
    store.isKnown node = true ↔ ∃ value, store.value? node = some value := by
  simp only [isKnown, Option.any_eq_true, value?_eq, Option.bind_eq_some_iff]
  constructor
  · rintro ⟨knowledge, hknown, -⟩
    obtain ⟨explanation, value, rfl⟩ := hrooted.full hknown
    exact ⟨value, _, hknown, rfl⟩
  · rintro ⟨value, knowledge, hknown, -⟩
    obtain ⟨explanation, value', rfl⟩ := hrooted.full hknown
    exact ⟨_, hknown, rfl⟩

end Rooted

/-- The store with a node for an address that had none. -/
def allot (store : Store) (address : Address) : Store :=
  { store with
    nodes := store.nodes.push { address }
    ids := store.ids.insert address ⟨store.size⟩ }

theorem register_of_lookup (hlookup : store.lookup? address = some node) :
    store.register address = (node, store) := by
  simp [register, hlookup]

theorem register_of_none (hlookup : store.lookup? address = none) :
    store.register address = (⟨store.size⟩, store.allot address) := by
  simp [register, hlookup, allot, size]

theorem node_allot (store : Store) (address : Address) (node : NodeId) :
    (store.allot address).node node =
      if node.index = store.size then { address } else store.node node := by
  simp only [Store.node, allot, Array.getElem?_push, size]
  by_cases hindex : node.index = store.nodes.size <;> simp [hindex]

theorem address_allot_of_contains (hnode : store.Contains node) :
    (store.allot address).address node = store.address node := by
  simp [Store.address, node_allot, Nat.ne_of_lt hnode]

theorem size_allot (store : Store) (address : Address) :
    (store.allot address).size = store.size + 1 := by
  simp [allot, size]

theorem knowledge?_allot (store : Store) (address : Address) (node : NodeId) :
    (store.allot address).knowledge? node = store.knowledge? node := by
  change ((store.allot address).node node).history.visible? _ =
    (store.node node).history.visible? _
  rw [node_allot]
  split
  case isTrue hindex =>
    rw [node_eq_default (by simp [Contains, hindex])]
    rfl
  case isFalse _ => rfl

theorem lookup?_allot (store : Store) (address other : Address) :
    (store.allot address).lookup? other =
      if address = other then some ⟨store.size⟩ else store.lookup? other := by
  simp only [lookup?, allot, Std.HashMap.getElem?_insert, beq_iff_eq]

theorem allot_grows (hlookup : store.lookup? address = none) :
    store.Grows (store.allot address) where
  size_le := by simp [size_allot]
  address_eq := address_allot_of_contains
  lookup {other node} hother := by
    rw [lookup?_allot, if_neg, hother]
    rintro rfl
    rw [hlookup] at hother
    cases hother
  knowledge hknown := by rw [knowledge?_allot, hknown]
  envs := .refl _
  library := rfl

/-- Addresses and nodes still determine each other after an address was allotted. -/
theorem allot_ids (hids : ∀ {address node}, store.lookup? address = some node ↔
      store.Contains node ∧ store.address node = address)
    (hlookup : store.lookup? address = none) {other : Address} :
    (store.allot address).lookup? other = some node ↔
      (store.allot address).Contains node ∧ (store.allot address).address node = other := by
  rw [lookup?_allot, Contains, size_allot]
  by_cases hindex : node.index = store.size
  · have hnode : node = ⟨store.size⟩ := by rw [← hindex]
    subst hnode
    have hnone : store.lookup? other ≠ some ⟨store.size⟩ := fun hother ↦
      absurd (hids.1 hother).1 (by simp [Contains])
    simp only [Store.address, node_allot, ↓reduceIte]
    split
    case isTrue heq => simp [heq]
    case isFalse hne => simp [hnone, hne]
  · have hnode : node.index < store.size + 1 ↔ store.Contains node := by
      simp only [Contains]
      omega
    rw [hnode]
    split
    case isTrue heq =>
      subst heq
      constructor
      · intro hsize
        cases hsize
        exact absurd rfl hindex
      · rintro ⟨hcontains, haddress⟩
        rw [address_allot_of_contains hcontains] at haddress
        rw [hids.2 ⟨hcontains, haddress⟩] at hlookup
        cases hlookup
    case isFalse hne =>
      rw [hids]
      refine and_congr_right fun hcontains ↦ ?_
      rw [address_allot_of_contains hcontains]

theorem allot_history (address : Address)
    (hhistory : ∀ node, (store.node node).history = .ofKnowledge (store.knowledge? node))
    (node : NodeId) : ((store.allot address).node node).history =
      .ofKnowledge ((store.allot address).knowledge? node) := by
  rw [knowledge?_allot, node_allot]
  split
  case isTrue hindex =>
    rw [← hhistory, node_eq_default (by simp [Contains, hindex])]
    rfl
  case isFalse _ => exact hhistory node

theorem allot_rooted (hrooted : store.Rooted) (hlookup : store.lookup? address = none) :
    (store.allot address).Rooted where
  revisions := hrooted.revisions
  ids := allot_ids hrooted.ids hlookup
  history := allot_history address hrooted.history
  full hknown := by
    rw [knowledge?_allot] at hknown
    exact hrooted.full hknown
  envs := hrooted.envs

theorem register_rooted (hrooted : store.Rooted) (address : Address) :
    (store.register address).2.Rooted := by
  cases hlookup : store.lookup? address with
  | some node => rwa [register_of_lookup hlookup]
  | none =>
    rw [register_of_none hlookup]
    exact allot_rooted hrooted hlookup

theorem register_grows (store : Store) (address : Address) :
    store.Grows (store.register address).2 := by
  cases hlookup : store.lookup? address with
  | some node =>
    rw [register_of_lookup hlookup]
    exact .refl store
  | none =>
    rw [register_of_none hlookup]
    exact allot_grows hlookup

theorem lookup?_register (store : Store) (address : Address) :
    (store.register address).2.lookup? address = some (store.register address).1 := by
  cases hlookup : store.lookup? address with
  | some node => rw [register_of_lookup hlookup, hlookup]
  | none => rw [register_of_none hlookup, lookup?_allot, if_pos rfl]

theorem knowledge?_register (store : Store) (address : Address) (node : NodeId) :
    (store.register address).2.knowledge? node = store.knowledge? node := by
  cases hlookup : store.lookup? address with
  | some node => rw [register_of_lookup hlookup]
  | none => rw [register_of_none hlookup, knowledge?_allot]

/-! ## Entering knowledge -/

/-- The store in which a node has its first knowledge. -/
def enter (store : Store) (node : NodeId) (knowledge : Knowledge) : Store :=
  store.setHistory node (.ofKnowledge (some knowledge))

theorem size_setHistory (store : Store) (node : NodeId) (history : History) :
    (store.setHistory node history).size = store.size := by
  simp [setHistory, size]

theorem size_enter (store : Store) (node : NodeId) (knowledge : Knowledge) :
    (store.enter node knowledge).size = store.size :=
  size_setHistory store node _

theorem node_setHistory (hnode : store.Contains node) (history : History) (other : NodeId) :
    (store.setHistory node history).node other =
      if node = other then { store.node other with history } else store.node other := by
  simp only [Store.node, setHistory, Array.getElem?_modify]
  by_cases hindex : node = other
  · subst hindex
    have hsome : ∃ held, store.nodes[node.index]? = some held :=
      ⟨_, Array.getElem?_eq_getElem hnode⟩
    obtain ⟨held, hheld⟩ := hsome
    simp [hheld]
  · have hne : node.index ≠ other.index := by
      intro heq
      obtain ⟨_⟩ := node
      obtain ⟨_⟩ := other
      simp_all
    simp [hindex, hne]

theorem node_enter (hnode : store.Contains node) (other : NodeId) :
    (store.enter node knowledge).node other =
      if node = other then
        { store.node other with history := .ofKnowledge (some knowledge) }
      else store.node other :=
  node_setHistory hnode _ other

theorem address_setHistory (hnode : store.Contains node) (history : History) (other : NodeId) :
    (store.setHistory node history).address other = store.address other := by
  simp only [Store.address, node_setHistory hnode]
  split <;> rfl

theorem address_enter (hnode : store.Contains node) (other : NodeId) :
    (store.enter node knowledge).address other = store.address other :=
  address_setHistory hnode _ other

theorem knowledge?_setHistory (hrevisions : store.revisions = {}) (hnode : store.Contains node)
    (known : Option Knowledge) (other : NodeId) :
    (store.setHistory node (.ofKnowledge known)).knowledge? other =
      if node = other then known else store.knowledge? other := by
  have hrevisions' : (store.setHistory node (.ofKnowledge known)).revisions = {} := hrevisions
  rw [knowledge?_of_revisions hrevisions', node_setHistory hnode]
  split
  case isTrue =>
    cases known with
    | none => rfl
    | some knowledge => exact List.lookup_cons_self
  case isFalse => exact (knowledge?_of_revisions hrevisions other).symm

theorem knowledge?_enter (hrooted : store.Rooted) (hnode : store.Contains node) (other : NodeId) :
    (store.enter node knowledge).knowledge? other =
      if node = other then some knowledge else store.knowledge? other :=
  knowledge?_setHistory hrooted.revisions hnode (some knowledge) other

theorem enter_rooted (hrooted : store.Rooted) (hnode : store.Contains node)
    (explanation : Explanation) (value : Value) :
    (store.enter node (.of explanation value)).Rooted where
  revisions := hrooted.revisions
  ids {address other} := by
    simp only [Contains, size_enter, address_enter hnode]
    exact hrooted.ids
  history other := by
    rw [knowledge?_enter hrooted hnode, node_enter hnode]
    split
    · rfl
    · exact hrooted.history other
  full {other knowledge} hknown := by
    rw [knowledge?_enter hrooted hnode] at hknown
    split at hknown
    · exact ⟨explanation, value, (Option.some.inj hknown).symm⟩
    · exact hrooted.full hknown
  envs := hrooted.envs

theorem enter_grows (hrooted : store.Rooted) (hnode : store.Contains node)
    (hunknown : store.knowledge? node = none) : store.Grows (store.enter node knowledge) where
  size_le := Nat.le_of_eq (size_enter store node knowledge).symm
  address_eq {other} _ := address_enter hnode other
  lookup hlookup := hlookup
  knowledge {other known} hknown := by
    rw [knowledge?_enter hrooted hnode, if_neg, hknown]
    rintro rfl
    rw [hunknown] at hknown
    cases hknown
  envs := .refl _
  library := rfl

/-! ## Writing -/

theorem write_eq (store : Store) (address : Address) (knowledge : Knowledge) :
    write address knowledge store =
      match (store.register address).2.revised (store.register address).1 knowledge with
      | .ok history =>
        .ok (store.register address).1
          ((store.register address).2.setHistory (store.register address).1 history)
      | .error conflict => .error (.addressCollision address conflict) (store.register address).2 := by
  rw [write, run_modifyGet_bind, run_get_bind]
  cases (store.register address).2.revised (store.register address).1 knowledge <;> rfl

/-- Taking in a value is a write to a node with a new identity. -/
theorem input_eq (store : Store) (value : Value) :
    input value store =
      write (store.fresh.2.address store.fresh.1) (.of .given value) store.fresh.2 := by
  rw [input, run_modifyGet_bind, run_get_bind]

/-- Changing an input is a write to its node. -/
theorem update_eq (store : Store) (node : NodeId) (value : Value) :
    update node value store =
      match write (store.address node) (.of .given value) store with
      | .ok _ final => .ok () final
      | .error error final => .error error final := by
  rw [update, run_get_bind, run_bind]
  cases write (store.address node) (.of .given value) store <;> rfl

theorem primitive_of_some {primitive : Primitive}
    (hlookup : store.library.lookup primitive = some node) :
    Store.primitive primitive store = .ok node store := by
  rw [Store.primitive, run_get_bind, hlookup]
  rfl

/-- A primitive that is not in the library yet is taken in and noted. -/
theorem primitive_of_none {primitive : Primitive} (hlookup : store.library.lookup primitive = none) :
    Store.primitive primitive store =
      match input (.primitive primitive.value) store with
      | .ok node middle =>
        .ok node { middle with library := middle.library ++ [(primitive, node)] }
      | .error error middle => .error error middle := by
  rw [Store.primitive, run_get_bind, hlookup]
  dsimp only
  rw [run_bind]
  cases input (.primitive primitive.value) store <;> rfl

/-- Only a revision that has been opened can be gone to. -/
theorem checkout_eq (store : Store) (revision : Revision) :
    checkout revision store =
      match store.revisions.checkout? revision with
      | some revisions => .ok () { store with revisions }
      | none => .error (.unknownRevision revision) store := by
  rw [checkout, run_get_bind]
  cases store.revisions.checkout? revision <;> rfl

/-- The first write to a node enters what is written. -/
theorem write_of_no_history (hrevisions : store.revisions = {}) (address : Address)
    (hblank : knowledge.isBlank = false)
    (hhistory : ((store.register address).2.node (store.register address).1).history =
      .ofKnowledge none) :
    write address knowledge store =
      .ok (store.register address).1
        ((store.register address).2.enter (store.register address).1 knowledge) := by
  have hrevisions' : (store.register address).2.revisions = {} := by
    unfold Store.register
    split <;> exact hrevisions
  have hlineage : (store.register address).2.revisions.lineage (store.register address).2.current =
      [.root] := by
    rw [Store.current, hrevisions']
    rfl
  have hcurrent : (store.register address).2.current = .root := by
    rw [Store.current, hrevisions']
  have hrevised : (store.register address).2.revised (store.register address).1 knowledge =
      .ok (.ofKnowledge (some knowledge)) := by
    rw [revised, hhistory, hlineage, hcurrent]
    simp only [History.ofKnowledge, History.commit, hblank]
    rfl
  rw [write_eq, hrevised]
  rfl

theorem write_of_unknown (hrooted : store.Rooted) (address : Address)
    (hblank : knowledge.isBlank = false)
    (hunknown : store.knowledge? (store.register address).1 = none) :
    write address knowledge store =
      .ok (store.register address).1
        ((store.register address).2.enter (store.register address).1 knowledge) := by
  refine write_of_no_history hrooted.revisions address hblank ?_
  rw [(register_rooted hrooted address).history, knowledge?_register, hunknown]

theorem setHistory_history (hnode : store.Contains node) :
    store.setHistory node (store.node node).history = store := by
  have hnodes : (store.nodes.modify node.index fun held ↦
      { held with history := (store.node node).history }) = store.nodes := by
    apply Array.ext_getElem?
    intro index
    rw [Array.getElem?_modify]
    split
    case isTrue heq =>
      subst heq
      obtain ⟨held, hheld⟩ : ∃ held, store.nodes[node.index]? = some held :=
        ⟨_, Array.getElem?_eq_getElem hnode⟩
      simp [Store.node, hheld]
    case isFalse _ => rfl
  rw [setHistory, hnodes]

/-- A write that brings nothing new leaves the store as it is. -/
theorem write_of_history (hrevisions : store.revisions = {})
    (hlookup : store.lookup? address = some node) {known : Knowledge}
    (hknown : store.knowledge? node = some known)
    (hhistory : (store.node node).history = .ofKnowledge (some known))
    (hblank : knowledge.isBlank = false) (hmerge : merge known knowledge = .ok known) :
    write address knowledge store = .ok node store := by
  have hnode := contains_of_knowledge hknown
  have hlineage : store.revisions.lineage store.current = [.root] := by
    rw [Store.current, hrevisions]
    rfl
  have hcurrent : store.current = .root := by
    rw [Store.current, hrevisions]
  have hrevised : store.revised node knowledge = .ok (store.node node).history := by
    rw [revised, hhistory, hlineage, hcurrent]
    simp [History.ofKnowledge, History.commit, hblank, hmerge, History.amend, pure, Except.pure,
      bind, Except.bind]
  rw [write_eq, register_of_lookup hlookup]
  simp only [hrevised, setHistory_history hnode]

theorem write_of_known (hrooted : store.Rooted) (hlookup : store.lookup? address = some node)
    {known : Knowledge} (hknown : store.knowledge? node = some known)
    (hblank : knowledge.isBlank = false) (hmerge : merge known knowledge = .ok known) :
    write address knowledge store = .ok node store :=
  write_of_history hrooted.revisions hlookup hknown (by rw [hrooted.history, hknown]) hblank hmerge

theorem extend_rooted (hrooted : store.Rooted) {env : EnvId} (henv : store.envs.Contains env)
    (name : Symbol) (binding : Binding) : (store.extend env name binding).2.Rooted :=
  { hrooted with envs := Environments.extend_canonical hrooted.envs henv name binding }

theorem withEnvs_grows {envs : Environments} (hgrows : store.envs.Grows envs) :
    store.Grows { store with envs } :=
  { Grows.refl store with envs := hgrows }

end Store

end Whence
