import Whence.Proofs.Inputs
import Whence.Proofs.Reference.Basic

/-!
# What a store means in the plain language

A node that is evaluated on demand stands for its expression, delayed in the context that its
environment stands for.  An input stands for what was given.  Whatever is known of a delayed node has
no part in its meaning, so that meanings persist when the store grows.  Bindings and inputs refer
only to earlier nodes, so that everything in a sound store has a meaning.
-/

namespace Whence.Reference

variable {store store' : Store}

mutual

inductive NodeMeans (store : Store) : NodeId → Thunk → Prop
  | delayed {node : NodeId} {env : EnvId} {expr : ExprId} {context : Context} :
      store.Contains node → store.address node = .evaluation env expr →
      store.envs.Contains env → ChainMeans store (store.envs.entries env) context →
      NodeMeans store node (.delayed context expr)
  | given {node source : NodeId} {value : Value} {datum : Datum} :
      store.address node = .input source → store.value? node = some value →
      ValueMeans store value datum → NodeMeans store node (.given datum)

inductive NodesMean (store : Store) : List NodeId → List Thunk → Prop
  | nil : NodesMean store [] []
  | cons {node : NodeId} {nodes : List NodeId} {thunk : Thunk} {thunks : List Thunk} :
      NodeMeans store node thunk → NodesMean store nodes thunks →
      NodesMean store (node :: nodes) (thunk :: thunks)

/-- The bindings of an environment, innermost first, stand for the context. -/
inductive ChainMeans (store : Store) : List (Symbol × Binding) → Context → Prop
  | nil : ChainMeans store [] []
  | node {name : Symbol} {node : NodeId} {thunk : Thunk} {chain : List (Symbol × Binding)}
      {context : Context} : NodeMeans store node thunk → ChainMeans store chain context →
      ChainMeans store ((name, .node node) :: chain) ((name, .thunk thunk) :: context)
  | recursive {name : Symbol} {scope : Scope} {position : Nat} {chain : List (Symbol × Binding)}
      {outer context : Context} : store.envs.Contains scope.env →
      ChainMeans store (store.envs.entries scope.env) outer → ChainMeans store chain context →
      ChainMeans store ((name, .recursive scope position) :: chain)
        ((name, .recursive outer scope.group position) :: context)

inductive ValueMeans (store : Store) : Value → Datum → Prop
  | number {value : Number} : ValueMeans store (.number value) (.number value)
  | text {value : String} : ValueMeans store (.text value) (.text value)
  | closure {closure : Closure} {context : Context} : store.envs.Contains closure.env →
      ChainMeans store (store.envs.entries closure.env) context →
      ValueMeans store (.closure closure) (.closure context closure.function)
  | unary {op : UnaryOp} : ValueMeans store (.primitive (.unary op)) (.primitive (.unary op))
  | binary {op : BinaryOp} : ValueMeans store (.primitive (.binary op)) (.primitive (.binary op))
  | partially {op : BinaryOp} {first : NodeId} {value : Value} :
      store.value? first = some value → value.Flat →
      ValueMeans store (.primitive (.partially op first)) (.partially op (.ofForm value))
  | constructor {tag : Symbol} {args : List NodeId} {thunks : List Thunk} :
      NodesMean store args thunks →
      ValueMeans store (.constructor tag args) (.constructor tag thunks)

end

/-- The environment stands for the context. -/
structure EnvMeans (store : Store) (env : EnvId) (context : Context) : Prop where
  contains : store.envs.Contains env
  chain : ChainMeans store (store.envs.entries env) context

mutual

theorem NodeMeans.grow (hgrows : store.Grows store') {node : NodeId} {thunk : Thunk} :
    NodeMeans store node thunk → NodeMeans store' node thunk
  | .delayed hnode haddress henv hchain =>
    .delayed (hgrows.contains hnode) ((hgrows.address_eq hnode).trans haddress)
      (hgrows.envs.contains henv) (hgrows.envs.entries_eq henv ▸ hchain.grow hgrows)
  | .given haddress hvalue hmeans =>
    .given ((hgrows.address_eq (Store.contains_of_value hvalue)).trans haddress)
      (hgrows.value hvalue) (hmeans.grow hgrows)

theorem NodesMean.grow (hgrows : store.Grows store') {nodes : List NodeId} {thunks : List Thunk} :
    NodesMean store nodes thunks → NodesMean store' nodes thunks
  | .nil => .nil
  | .cons hnode hnodes => .cons (hnode.grow hgrows) (hnodes.grow hgrows)

theorem ChainMeans.grow (hgrows : store.Grows store') {chain : List (Symbol × Binding)}
    {context : Context} : ChainMeans store chain context → ChainMeans store' chain context
  | .nil => .nil
  | .node hnode hchain => .node (hnode.grow hgrows) (hchain.grow hgrows)
  | .recursive henv houter hchain =>
    .recursive (hgrows.envs.contains henv) (hgrows.envs.entries_eq henv ▸ houter.grow hgrows)
      (hchain.grow hgrows)

theorem ValueMeans.grow (hgrows : store.Grows store') {value : Value} {datum : Datum} :
    ValueMeans store value datum → ValueMeans store' value datum
  | .number => .number
  | .text => .text
  | .closure henv hchain =>
    .closure (hgrows.envs.contains henv) (hgrows.envs.entries_eq henv ▸ hchain.grow hgrows)
  | .unary => .unary
  | .binary => .binary
  | .partially hvalue hflat => .partially (hgrows.value hvalue) hflat
  | .constructor hargs => .constructor (hargs.grow hgrows)

end

theorem EnvMeans.grow (hgrows : store.Grows store') {env : EnvId} {context : Context}
    (hmeans : EnvMeans store env context) : EnvMeans store' env context where
  contains := hgrows.envs.contains hmeans.contains
  chain := hgrows.envs.entries_eq hmeans.contains ▸ hmeans.chain.grow hgrows

mutual

theorem NodeMeans.unique {node : NodeId} {thunk thunk' : Thunk} :
    NodeMeans store node thunk → NodeMeans store node thunk' → thunk' = thunk
  | .delayed _ haddress _ hchain, hother => by
    cases hother with
    | delayed _ haddress' _ hchain' =>
      rw [haddress] at haddress'
      cases haddress'
      rw [hchain.unique hchain']
    | given haddress' _ _ =>
      rw [haddress] at haddress'
      cases haddress'
  | .given haddress hvalue hmeans, hother => by
    cases hother with
    | delayed _ haddress' _ _ =>
      rw [haddress] at haddress'
      cases haddress'
    | given _ hvalue' hmeans' =>
      rw [hvalue] at hvalue'
      cases hvalue'
      rw [hmeans.unique hmeans']

theorem NodesMean.unique {nodes : List NodeId} {thunks thunks' : List Thunk} :
    NodesMean store nodes thunks → NodesMean store nodes thunks' → thunks' = thunks
  | .nil, .nil => rfl
  | .cons hnode hnodes, .cons hnode' hnodes' => by
    rw [hnode.unique hnode', hnodes.unique hnodes']

theorem ChainMeans.unique {chain : List (Symbol × Binding)} {context context' : Context} :
    ChainMeans store chain context → ChainMeans store chain context' → context' = context
  | .nil, .nil => rfl
  | .node hnode hchain, .node hnode' hchain' => by
    rw [hnode.unique hnode', hchain.unique hchain']
  | .recursive _ houter hchain, .recursive _ houter' hchain' => by
    rw [houter.unique houter', hchain.unique hchain']

theorem ValueMeans.unique {value : Value} {datum datum' : Datum} :
    ValueMeans store value datum → ValueMeans store value datum' → datum' = datum
  | .number, .number => rfl
  | .text, .text => rfl
  | .closure _ hchain, .closure _ hchain' => by rw [hchain.unique hchain']
  | .unary, .unary => rfl
  | .binary, .binary => rfl
  | .partially hvalue _, .partially hvalue' _ => by
    rw [hvalue] at hvalue'
    cases hvalue'
    rfl
  | .constructor hargs, .constructor hargs' => by rw [hargs.unique hargs']

end

section

variable {program : Program}

/-- A chain has a meaning if the nodes that it binds have one. -/
theorem exists_chainMeans (htidy : Tidy program store) {env : EnvId}
    (henv : store.envs.Contains env) (hnodes : ∀ {name node},
      (name, Binding.node node) ∈ store.envs.entries env → ∃ thunk, NodeMeans store node thunk) :
    ∃ context, ChainMeans store (store.envs.entries env) context := by
  generalize hlength : (store.envs.entries env).length = length
  induction length using Nat.strongRecOn generalizing env with
  | ind length ih =>
    cases hchain : store.envs.entries env with
    | nil => exact ⟨[], .nil⟩
    | cons first rest =>
      obtain ⟨name, binding⟩ := first
      obtain ⟨parent, hparent, hrest, -⟩ := htidy.envs.parent_of_cons henv hchain
      -- Both the rest of the chain and the chain around a recursive group are suffixes of it.
      have hsuffix : ∀ {outer}, store.envs.Contains outer → store.envs.entries outer <:+ rest →
          ∃ context, ChainMeans store (store.envs.entries outer) context := by
        intro outer houter hsuffix
        have hshorter : (store.envs.entries outer).length < length := by
          rw [← hlength, hchain, List.length_cons]
          exact Nat.lt_succ_of_le hsuffix.length_le
        refine ih _ hshorter houter (fun {name node} hmem ↦ ?_) rfl
        have hmem' : (name, Binding.node node) ∈ store.envs.entries env := by
          rw [hchain]
          exact List.mem_cons_of_mem _ (hsuffix.subset hmem)
        exact hnodes hmem'
      obtain ⟨context, hcontext⟩ := hsuffix hparent (hrest ▸ List.suffix_refl _)
      rw [hrest] at hcontext
      cases binding with
      | node node =>
        obtain ⟨thunk, hthunk⟩ := hnodes (hchain ▸ List.mem_cons_self)
        exact ⟨_, .node hthunk hcontext⟩
      | recursive scope position =>
        obtain ⟨houter, -, hscope⟩ := htidy.fits henv hparent (by rw [hchain, hrest])
        obtain ⟨outer, hmeans⟩ := hsuffix houter (hrest ▸ hscope)
        exact ⟨_, .recursive houter hmeans hcontext⟩

theorem exists_nodesMean {nodes : List NodeId}
    (hnodes : ∀ node ∈ nodes, ∃ thunk, NodeMeans store node thunk) :
    ∃ thunks, NodesMean store nodes thunks := by
  induction nodes with
  | nil => exact ⟨[], .nil⟩
  | cons node nodes ih =>
    obtain ⟨thunk, hthunk⟩ := hnodes node List.mem_cons_self
    obtain ⟨thunks, hthunks⟩ := ih fun node hnode ↦ hnodes node (List.mem_cons_of_mem _ hnode)
    exact ⟨_, .cons hthunk hthunks⟩

theorem exists_nodeMeans (htidy : Tidy program store) (hraw : store.RawInputs) {node : NodeId}
    (hnode : store.Contains node) : ∃ thunk, NodeMeans store node thunk := by
  obtain ⟨index⟩ := node
  induction index using Nat.strongRecOn with
  | ind index ih =>
    have hearlier : ∀ {other : NodeId}, other.index < index → ∃ thunk, NodeMeans store other thunk :=
      fun {other} hlt ↦ ih other.index hlt (Nat.lt_trans hlt hnode)
    cases haddress : store.address ⟨index⟩ with
    | evaluation env expr =>
      obtain ⟨henv, hbound⟩ := htidy.evaluation hnode haddress
      obtain ⟨context, hcontext⟩ := exists_chainMeans htidy henv fun hmem ↦ hearlier (hbound hmem)
      exact ⟨_, .delayed hnode haddress henv hcontext⟩
    | input source =>
      obtain ⟨-, value, hknown, hchildren⟩ := htidy.input hnode haddress
      have hvalue := Store.value?_of_knowledge hknown
      suffices hmeans : ∃ datum, ValueMeans store value datum by
        obtain ⟨datum, hdatum⟩ := hmeans
        exact ⟨_, .given haddress hvalue hdatum⟩
      cases value with
      | number _ => exact ⟨_, .number⟩
      | text _ => exact ⟨_, .text⟩
      | closure _ => cases hraw _ _ _ haddress hvalue
      | primitive primitive =>
        cases primitive with
        | unary _ => exact ⟨_, .unary⟩
        | binary _ => exact ⟨_, .binary⟩
        | partially _ _ => cases hraw _ _ _ haddress hvalue
      | constructor tag args =>
        obtain ⟨thunks, hthunks⟩ := exists_nodesMean fun arg harg ↦ hearlier (hchildren arg harg)
        exact ⟨_, .constructor hthunks⟩

theorem exists_envMeans (htidy : Tidy program store) (hraw : store.RawInputs) {env : EnvId}
    (henv : store.envs.Contains env) : ∃ context, EnvMeans store env context := by
  obtain ⟨context, hchain⟩ :=
    exists_chainMeans htidy henv fun hmem ↦ exists_nodeMeans htidy hraw (htidy.bound hmem)
  exact ⟨context, henv, hchain⟩

end

end Whence.Reference
