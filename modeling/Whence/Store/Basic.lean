import Whence.Environment
import Whence.Error
import Whence.Store.History
import Whence.Store.Revisions

/-!
# The store

The store holds a node for every address ever mentioned, the environments, the revisions and the
nodes of the primitive library.  Reading sees the current revision unless another one is named;
writing always happens at the current revision.

A node for data from outside has no identity but its own number.  A generator of identities beside
the store might run out of them; the numbers of the nodes do not, so that taking in data never fails
for want of an identity.
-/

namespace Whence

structure Node where
  address : Address
  history : History := {}

instance : Inhabited Node := ⟨{ address := .input ⟨0⟩ }⟩

structure Store where
  nodes : Array Node := #[]
  ids : Std.HashMap Address NodeId := ∅
  envs : Environments := {}
  revisions : Revisions := {}
  library : List (Primitive × NodeId) := []

/-- An operation on a store that may fail; what it did before failing stays done. -/
abbrev Storing := EStateM Error Store

namespace Store

def empty : Store := {}

def size (store : Store) : Nat := store.nodes.size

def current (store : Store) : Revision := store.revisions.current

/-- All nodes, in the order in which they were first mentioned. -/
def nodeIds (store : Store) : List NodeId := (List.range store.nodes.size).map NodeId.mk

/-- An identifier that the store did not hand out denotes a node without history. -/
def node (store : Store) (id : NodeId) : Node := store.nodes[id.index]?.getD default

def address (store : Store) (id : NodeId) : Address := (store.node id).address

def lookup? (store : Store) (address : Address) : Option NodeId := store.ids[address]?

def knowledgeAt? (store : Store) (id : NodeId) (revision : Revision) : Option Knowledge :=
  (store.node id).history.visible? (store.revisions.lineage revision)

def knowledge? (store : Store) (id : NodeId) : Option Knowledge :=
  store.knowledgeAt? id store.current

def valueAt? (store : Store) (id : NodeId) (revision : Revision) : Option Value :=
  (store.knowledgeAt? id revision).bind Knowledge.value

def value? (store : Store) (id : NodeId) : Option Value :=
  store.valueAt? id store.current

def explanation? (store : Store) (id : NodeId) : Option Explanation :=
  (store.knowledge? id).bind Knowledge.explanation

/-- Whether the current revision holds anything about the node. -/
def isKnown (store : Store) (id : NodeId) : Bool :=
  (store.knowledge? id).any fun knowledge ↦ !knowledge.isBlank

/-- The nodes of which the value of a node is made. -/
def children (store : Store) (id : NodeId) : List NodeId :=
  ((store.value? id).map Value.children).getD []

def versions (store : Store) (id : NodeId) : List Revision := (store.node id).history.versions

def isLibrary (store : Store) (id : NodeId) : Bool :=
  store.library.any fun entry ↦ entry.2 == id

def extend (store : Store) (env : EnvId) (name : Symbol) (binding : Binding) : EnvId × Store :=
  let (id, envs) := store.envs.extend env name binding
  (id, { store with envs })

def singleton (store : Store) (name : Symbol) (binding : Binding) : EnvId × Store :=
  let (id, envs) := store.envs.singleton name binding
  (id, { store with envs })

def concat (store : Store) (inner outer : EnvId) : EnvId × Store :=
  let (id, envs) := store.envs.concat inner outer
  (id, { store with envs })

def spawn (store : Store) : Revision × Store :=
  let (revision, revisions) := store.revisions.spawn
  (revision, { store with revisions })

def checkout (revision : Revision) : Storing Unit := do
  match (← get).revisions.checkout? revision with
  | some revisions => modify fun store ↦ { store with revisions }
  | none => throw (.unknownRevision revision)

/-- The node of an address, which is made when the address is first mentioned. -/
def register (store : Store) (address : Address) : NodeId × Store :=
  match store.lookup? address with
  | some id => (id, store)
  | none =>
    let id : NodeId := ⟨store.nodes.size⟩
    (id, { store with
      nodes := store.nodes.push { address }
      ids := store.ids.insert address id })

/-- A node with a new identity, for data from outside the program: the number that it gets. -/
def fresh (store : Store) : NodeId × Store :=
  store.register (.input ⟨store.nodes.size⟩)

/-- The history of a node after a write at the current revision. -/
def revised (store : Store) (id : NodeId) (knowledge : Knowledge) : Except Conflict History :=
  (store.node id).history.commit (store.revisions.lineage store.current) store.current knowledge

def setHistory (store : Store) (id : NodeId) (history : History) : Store :=
  { store with nodes := store.nodes.modify id.index fun node ↦ { node with history } }

/-- Writes knowledge about the node of an address at the current revision. -/
def write (address : Address) (knowledge : Knowledge) : Storing NodeId := do
  let id ← modifyGet fun store ↦ store.register address
  match (← get).revised id knowledge with
  | .ok history =>
    modify fun store ↦ store.setHistory id history
    pure id
  | .error conflict => throw (.addressCollision address conflict)

/-- Takes in a value from outside the program. -/
def input (value : Value) : Storing NodeId := do
  let id ← modifyGet fresh
  write ((← get).address id) (.of .given value)

/-- Writes another value for an input, which its revision must not contradict. -/
def update (id : NodeId) (value : Value) : Storing Unit := do
  let _ ← write ((← get).address id) (.of .given value)

/-- The node of a library primitive, made when it is first asked for. -/
def primitive (primitive : Primitive) : Storing NodeId := do
  match (← get).library.lookup primitive with
  | some id => pure id
  | none =>
    let id ← input (.primitive primitive.value)
    modify fun store ↦ { store with library := store.library ++ [(primitive, id)] }
    pure id

end Store

end Whence
