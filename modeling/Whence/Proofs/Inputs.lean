import Whence.Evaluation.Basic
import Whence.Proofs.Building
import Whence.Proofs.Companion
import Whence.Proofs.Library.Basic

/-!
# Data from outside the program

Taking in a value and opening the library keep a store sound.  While the library is being opened it
is not complete, and the store holds nothing but inputs.
-/

namespace Whence

variable {program : Program} {store : Store} {value : Value}

/-- The value is data or a primitive without operands. -/
def Value.isRaw : Value → Bool
  | .closure _ | .primitive (.partially _ _) => false
  | _ => true

theorem Primitive.isRaw_value (primitive : Primitive) :
    (Value.primitive primitive.value).isRaw = true := by
  cases primitive <;> rfl

/-- The value is a primitive as the library holds it. -/
def Value.IsLibrary (value : Value) : Prop :=
  ∃ primitive : Primitive, value = .primitive primitive.value

/-- All inputs have the property. -/
def Store.InputsSatisfy (store : Store) (property : Value → Prop) : Prop :=
  ∀ node source value, store.address node = .input source → store.value? node = some value →
    property value

/-- No input is a function that only evaluation makes. -/
def Store.RawInputs (store : Store) : Prop := store.InputsSatisfy fun value ↦ value.isRaw = true

/-- What taking in a value leaves behind. -/
structure TakenIn (store : Store) (value : Value) (node : NodeId) (final : Store) : Prop where
  node_eq : node = ⟨store.size⟩
  grows : store.Grows final
  size : final.size = store.size + 1
  address : final.address node = .input node
  knowledge : final.knowledge? node = some (.of .given value)
  others : ∀ {other}, other ≠ node → final.knowledge? other = store.knowledge? other
  envs : final.envs = store.envs

namespace TakenIn

variable {node other : NodeId} {final : Store} (htaken : TakenIn store value node final)
include htaken

theorem eq_of_contains (hother : final.Contains other) (hnew : ¬store.Contains other) :
    other = node := by
  obtain ⟨index⟩ := other
  rw [htaken.node_eq, NodeId.mk.injEq]
  simp only [Store.Contains, htaken.size] at hother hnew
  omega

/-- A store of inputs is still one when a value has been taken in. -/
theorem inputs (hinputs : ∀ {node}, store.Contains node → store.address node = .input node)
    (hother : final.Contains other) : final.address other = .input other := by
  by_cases hold : store.Contains other
  · rw [htaken.grows.address_eq hold, hinputs hold]
  · rw [htaken.eq_of_contains hother hold, htaken.address]

end TakenIn

namespace Tidy

theorem named (htidy : Tidy program store) : store.Named :=
  ⟨htidy.ids, fun hnode haddress ↦ (htidy.input hnode haddress).1⟩

theorem input_eq (htidy : Tidy program store) (value : Value) :
    Store.input value store = .ok ⟨store.size⟩
      ((store.allot (.input ⟨store.size⟩)).enter ⟨store.size⟩ (.of .given value)) := by
  rw [htidy.named.input_eq, htidy.lineage.2]
  rfl

theorem takenIn (htidy : Tidy program store) (value : Value) :
    TakenIn store value ⟨store.size⟩
      ((store.allot (.input ⟨store.size⟩)).enter ⟨store.size⟩ (.of .given value)) := by
  have hfree := htidy.named.lookup_next_input
  have hrooted := Store.allot_rooted htidy.toRooted hfree
  have hcontains : (store.allot (.input ⟨store.size⟩)).Contains ⟨store.size⟩ := by
    simp [Store.Contains, Store.size_allot]
  have hunknown : (store.allot (.input ⟨store.size⟩)).knowledge? ⟨store.size⟩ = none := by
    rw [Store.knowledge?_allot]
    cases hknown : store.knowledge? ⟨store.size⟩ with
    | none => rfl
    | some knowledge => exact absurd (Store.contains_of_knowledge hknown) (Nat.lt_irrefl _)
  refine ⟨rfl, (Store.allot_grows hfree).trans (Store.enter_grows hrooted hcontains hunknown), ?_,
    ?_, ?_, fun hother ↦ ?_, rfl⟩
  · rw [Store.size_enter, Store.size_allot]
  · rw [Store.address_enter hcontains]
    exact hrooted.address_of_lookup (by rw [Store.lookup?_allot, if_pos rfl])
  · rw [Store.knowledge?_enter hrooted hcontains, if_pos rfl]
  · rw [Store.knowledge?_enter hrooted hcontains, if_neg hother.symm, Store.knowledge?_allot]

theorem of_takenIn (htidy : Tidy program store) (hwithin : value.Within store) {node : NodeId}
    {final : Store} (hrooted : final.Rooted) (htaken : TakenIn store value node final) :
    Tidy program final := by
  refine htidy.of_grows htaken.grows hrooted ?_ ?_ ?_ ?_
  · intro other env expr hother hold haddress
    rw [htaken.eq_of_contains hother hold, htaken.address] at haddress
    cases haddress
  · intro other source hother hold haddress
    cases htaken.eq_of_contains hother hold
    rw [htaken.address] at haddress
    cases haddress
    refine ⟨rfl, value, htaken.knowledge, fun child hchild ↦ ?_⟩
    rw [htaken.node_eq]
    cases value with
    | constructor _ _ => exact hwithin child hchild
    | primitive primitive =>
      cases primitive with
      | partially _ first =>
        cases List.mem_singleton.1 hchild
        exact hwithin
      | _ => cases hchild
    | _ => cases hchild
  · intro env parent name binding henv hold
    rw [htaken.envs] at henv
    exact absurd henv hold
  · intro other held hother hold
    by_cases hsame : other = node
    · subst hsame
      rw [Store.value?_of_knowledge htaken.knowledge] at hother
      cases hother
      exact ⟨hwithin.grow htaken.grows,
        .input (Store.contains_of_knowledge htaken.knowledge) htaken.address⟩
    · rw [Store.value?_eq, htaken.others hsame, ← Store.value?_eq, hold] at hother
      cases hother

/-- Inputs keep their values. -/
theorem inputsSatisfy (htidy : Tidy program store) {store' : Store} (hgrows : store.Grows store')
    (hkeeps : store.KeepsInputs store') {property : Value → Prop}
    (hinputs : store.InputsSatisfy property) : store'.InputsSatisfy property := by
  intro node source value haddress hvalue
  have hnode := hkeeps node source (Store.contains_of_value hvalue) haddress
  rw [hgrows.address_eq hnode] at haddress
  obtain ⟨-, held, hknown, -⟩ := htidy.input hnode haddress
  have hheld := Store.value?_of_knowledge hknown
  rw [hgrows.value hheld] at hvalue
  cases hvalue
  exact hinputs _ _ _ haddress hheld

/-- Taking in a value whose parts exist succeeds. -/
theorem input_spec (htidy : Tidy program store) (hwithin : value.Within store) :
    ∃ node final, Store.input value store = .ok node final ∧ TakenIn store value node final ∧
      Tidy program final := by
  have hfree := htidy.named.lookup_next_input
  have hcontains : (store.allot (.input ⟨store.size⟩)).Contains ⟨store.size⟩ := by
    simp [Store.Contains, Store.size_allot]
  exact ⟨_, _, htidy.input_eq value, htidy.takenIn value, htidy.of_takenIn hwithin
    (Store.enter_rooted (Store.allot_rooted htidy.toRooted hfree) hcontains _ _)
    (htidy.takenIn value)⟩

end Tidy

theorem TakenIn.inputsSatisfy {node : NodeId} {final : Store}
    (htaken : TakenIn store value node final) {property : Value → Prop} (hvalue : property value)
    (hinputs : store.InputsSatisfy property) : final.InputsSatisfy property := by
  intro other source held haddress hheld
  by_cases hsame : other = node
  · subst hsame
    rw [Store.value?_of_knowledge htaken.knowledge] at hheld
    cases hheld
    exact hvalue
  · rw [Store.value?_eq, htaken.others hsame, ← Store.value?_eq] at hheld
    rw [htaken.grows.address_eq (Store.contains_of_value hheld)] at haddress
    exact hinputs _ _ _ haddress hheld

theorem Sound.input_spec (hsound : Sound program store) (hwithin : value.Within store) :
    ∃ node final, Store.input value store = .ok node final ∧ TakenIn store value node final ∧
      Sound program final := by
  obtain ⟨node, final, hinput, htaken, htidy⟩ := hsound.toTidy.input_spec hwithin
  exact ⟨node, final, hinput, htaken, hsound.of_envs_eq htidy htaken.grows htaken.envs⟩

/-- A text is not in the library. -/
theorem Tidy.isLibrary_of_text (htidy : Tidy program store) {node : NodeId} {text : String}
    (hknown : store.knowledge? node = some (.of .given (.text text))) :
    store.isLibrary node = false := by
  rw [Bool.eq_false_iff]
  intro hlibrary
  obtain ⟨⟨primitive, node'⟩, hmem, hnode⟩ := List.any_eq_true.1 hlibrary
  cases (eq_of_beq hnode : node' = node)
  rw [(htidy.library hmem).1] at hknown
  cases hknown

/-- In the first revision after the root an input gets another value that does not agree with the first
one. -/
theorem Store.Rooted.update_spawn (hrooted : store.Rooted) {node : NodeId} {old : Value}
    (hknown : store.knowledge? node = some (.of .given old)) (new : Value) {conflict : Conflict}
    (hconflict : merge (Knowledge.of .given old) (.of .given new) = .error conflict) :
    ∃ final, Store.update node new store.spawn.2 = .ok () final ∧ store.Alike final ∧
      final.knowledge? node = some (.of .given new) ∧
      ∀ {other}, other ≠ node → final.knowledge? other = store.knowledge? other := by
  have hcontains : store.Contains node := Store.contains_of_knowledge hknown
  have hspawned : store.spawn.2.Contains node := hcontains
  have hlookup : store.spawn.2.lookup? (store.spawn.2.address node) = some node :=
    hrooted.lookup_address hcontains
  have hrevisions : store.spawn.2.revisions = ({} : Revisions).spawn.2 := by
    rw [← hrooted.revisions]
    rfl
  have hhistory : (store.spawn.2.node node).history = ⟨[(.root, .of .given old)], []⟩ := by
    rw [show store.spawn.2.node node = store.node node from rfl, hrooted.history, hknown]
    rfl
  let history : History := ⟨[(.root, .of .given old), (⟨1⟩, .of .given new)], []⟩
  have hrecord : History.record ⟨[(.root, .of .given old)], []⟩ [⟨1⟩, .root] ⟨1⟩ (.of .given new) =
      history := by
    have hvisible : History.visible? ⟨[(.root, .of .given old)], []⟩ [⟨1⟩, .root] =
        some (.of .given old) := rfl
    simp only [History.record, hvisible, hconflict]
    rfl
  have hrevised : store.spawn.2.revised node (.of .given new) = .ok history := by
    rw [Store.revised, Store.current, hrevisions, hhistory, ← hrecord]
    rfl
  have hwrite : Store.write (store.spawn.2.address node) (.of .given new) store.spawn.2 =
      .ok node (store.spawn.2.setHistory node history) := by
    rw [Store.write_eq, Store.register_of_lookup hlookup]
    simp only [hrevised]
  have hvisible : ∀ other, (store.spawn.2.setHistory node history).knowledge? other =
      ((store.spawn.2.setHistory node history).node other).history.visible? [⟨1⟩, .root] := by
    intro other
    rw [Store.knowledge?, Store.knowledgeAt?, Store.current,
      show (store.spawn.2.setHistory node history).revisions = store.spawn.2.revisions from rfl,
      hrevisions]
    rfl
  have hopened : store.Alike store.spawn.2 := ⟨rfl, fun _ ↦ rfl, rfl, rfl, rfl⟩
  refine ⟨store.spawn.2.setHistory node history, ?_,
    hopened.trans (Store.alike_setHistory hspawned history), ?_, fun {other} hother ↦ ?_⟩
  · rw [Store.update_eq, hwrite]
  · rw [hvisible, Store.node_setHistory hspawned, if_pos rfl]
    rfl
  · rw [hvisible, Store.node_setHistory hspawned, if_neg hother.symm,
      show store.spawn.2.node other = store.node other from rfl, hrooted.history]
    cases store.knowledge? other <;> rfl

/-! ## The library -/

namespace Primitive

theorem mem_all (primitive : Primitive) : primitive ∈ all := by
  cases primitive with
  | unary op => cases op <;> decide
  | binary op => cases op <;> decide

theorem name_mem_initialNames (primitive : Primitive) :
    primitive.name ∈ Program.initialNames :=
  List.mem_append_right _ (List.mem_map_of_mem primitive.mem_all)

end Primitive

/-- A tidy store with primitives of the library alone. -/
structure Opening (program : Program) (store : Store) : Prop extends Tidy program store where
  given : store.InputsSatisfy Value.IsLibrary
  inputs : ∀ {node}, store.Contains node → store.address node = .input node
  nodes : ∀ {env name binding}, (name, binding) ∈ store.envs.entries env →
    ∃ node, binding = .node node

namespace Opening

theorem raw (hopening : Opening program store) : store.RawInputs := by
  intro node source value haddress hvalue
  obtain ⟨primitive, rfl⟩ := hopening.given node source value haddress hvalue
  exact primitive.isRaw_value

theorem sound (hopening : Opening program store) : Sound program store where
  toTidy := hopening.toTidy
  closed hmem := by
    obtain ⟨node, hnode⟩ := hopening.nodes hmem
    cases hnode

theorem empty (program : Program) : Opening program {} where
  revisions := rfl
  ids {address node} := by simp [Store.lookup?, Store.Contains, Store.size]
  history node := rfl
  full hknown := by cases hknown
  envs := .default
  evaluation hnode := absurd hnode (Nat.not_lt_zero _)
  fits {env parent name binding} _ _ hentries := by
    rw [Environments.entries_default] at hentries
    cases hentries
  input hnode := absurd hnode (Nat.not_lt_zero _)
  within hvalue := by cases hvalue
  holds hvalue := by cases hvalue
  library hmem := by cases hmem
  given node source value _ hvalue := by cases hvalue
  inputs hnode := absurd hnode (Nat.not_lt_zero _)
  nodes {env name binding} hmem := by
    rw [Environments.entries_default] at hmem
    cases hmem

/-- A primitive that has a node may be listed in the library. -/
theorem withLibrary (hopening : Opening program store) {primitive : Primitive} {node : NodeId}
    (hknown : store.knowledge? node = some (.of .given (.primitive primitive.value)))
    (haddress : store.address node = .input node) :
    Opening program { store with library := store.library ++ [(primitive, node)] } where
  revisions := hopening.revisions
  ids := hopening.ids
  history := hopening.history
  full := hopening.full
  envs := hopening.envs
  evaluation := hopening.evaluation
  fits {env parent name binding} henv hparent hentries := by
    have hmem : (name, binding) ∈ store.envs.entries env := hentries ▸ List.mem_cons_self
    obtain ⟨node, rfl⟩ := hopening.nodes hmem
    exact hopening.fits henv hparent hentries
  input := hopening.input
  within := hopening.within
  holds {other value} hvalue :=
    .input (Store.contains_of_value hvalue) (hopening.inputs (Store.contains_of_value hvalue))
  library {primitive' node'} hmem := by
    rw [List.mem_append, List.mem_singleton] at hmem
    obtain hmem | hmem := hmem
    · exact hopening.library hmem
    · cases hmem
      exact ⟨hknown, haddress⟩
  given := hopening.given
  inputs := hopening.inputs
  nodes := hopening.nodes

theorem input_spec (hopening : Opening program store) (hwithin : value.Within store)
    (hlibrary : value.IsLibrary) :
    ∃ node final, Store.input value store = .ok node final ∧ TakenIn store value node final ∧
      Opening program final := by
  obtain ⟨node, final, hinput, htaken, htidy⟩ := hopening.toTidy.input_spec hwithin
  refine ⟨node, final, hinput, htaken,
    { htidy with given := ?_, inputs := htaken.inputs hopening.inputs, nodes := ?_ }⟩
  · exact htaken.inputsSatisfy hlibrary hopening.given
  · rw [htaken.envs]
    exact hopening.nodes

/-- Every primitive gets a node, and those that have one keep it. -/
theorem primitive_spec (hopening : Opening program store) (primitive : Primitive) :
    ∃ node final, Store.primitive primitive store = .ok node final ∧ Opening program final ∧
      final.Contains node ∧ final.envs = store.envs ∧ final.library.lookup primitive = some node ∧
      ∀ {other found}, store.library.lookup other = some found →
        final.library.lookup other = some found := by
  cases hlookup : store.library.lookup primitive with
  | some node =>
    refine ⟨node, store, Store.primitive_of_some hlookup, hopening, ?_, rfl, hlookup,
      fun hother ↦ hother⟩
    · exact Store.contains_of_knowledge (hopening.library (Environments.mem_of_lookup hlookup)).1
  | none =>
    have hwithin : (Value.primitive primitive.value).Within store := by
      cases primitive <;> trivial
    obtain ⟨node, final, hinput, htaken, hopening'⟩ := hopening.input_spec hwithin
      ⟨primitive, rfl⟩
    have hnode := Store.contains_of_knowledge htaken.knowledge
    refine ⟨node, { final with library := final.library ++ [(primitive, node)] }, ?_,
      hopening'.withLibrary htaken.knowledge htaken.address, hnode, htaken.envs, ?_, ?_⟩
    · rw [Store.primitive_of_none hlookup, hinput]
    · simp [htaken.grows.library, List.lookup_append, hlookup]
    · intro other found hother
      simp [htaken.grows.library, List.lookup_append, hother]

theorem extend (hopening : Opening program store) {env : EnvId} (henv : store.envs.Contains env)
    (name : Symbol) {node : NodeId} (hnode : store.Contains node) :
    Opening program (store.extend env name (.node node)).2 where
  toTidy := hopening.toTidy.extend henv name hnode
  given := hopening.given
  inputs := hopening.inputs
  nodes {env' name' binding} hmem := by
    change _ ∈ (store.envs.extend env name (.node node)).2.entries env' at hmem
    by_cases hold : store.envs.Contains env'
    · rw [(Environments.extend_grows store.envs env name (.node node)).entries_eq hold] at hmem
      exact hopening.nodes hmem
    · have hmem := Environments.mem_of_extendAll [(name, .node node)] hopening.envs henv
        (Environments.contains_of_mem hmem) hold hmem
      obtain hmem | hmem := hmem
      · cases List.mem_singleton.1 hmem
        exact ⟨node, rfl⟩
      · exact hopening.nodes hmem

/-- What opening the library leaves behind. -/
structure Opened (program : Program) (machine : Machine) (primitives : List Primitive) (env : EnvId)
    (final : Machine) : Prop where
  opening : Opening program final.store
  memo : final.memo = machine.memo
  contains : final.store.envs.Contains env
  stocked : ∀ primitive ∈ primitives, ∃ node, final.store.library.lookup primitive = some node
  keeps : ∀ {primitive node}, machine.store.library.lookup primitive = some node →
    final.store.library.lookup primitive = some node

theorem bindPrimitives_spec (hprimed : program.Primed) (primitives : List Primitive)
    (machine : Machine) (hopening : Opening program machine.store) {env : EnvId}
    (henv : machine.store.envs.Contains env) :
    ∃ inner final, Evaluation.bindPrimitives program env primitives machine = .ok inner final ∧
      Opened program machine primitives inner final := by
  induction primitives generalizing machine env with
  | nil =>
    exact ⟨env, machine, rfl, hopening, rfl, henv, fun _ hmem ↦ absurd hmem List.not_mem_nil,
      fun hlookup ↦ hlookup⟩
  | cons primitive rest ih =>
    obtain ⟨name, hname⟩ := Option.isSome_iff_exists.1
      (hprimed.names (Primitive.name_mem_initialNames primitive))
    obtain ⟨node, store, hprimitive, hopening', hnode, henvs, hlookup, hkeeps⟩ :=
      hopening.primitive_spec primitive
    have henv' : store.envs.Contains env := by rwa [henvs]
    obtain ⟨inner, final, hrest, hopened⟩ :=
      ih { machine with store := (store.extend env name (.node node)).2 }
        (hopening'.extend henv' name hnode)
        (Environments.contains_extend hopening'.envs env name (.node node))
    refine ⟨inner, final, ?_, hopened.opening, hopened.memo, hopened.contains, ?_, fun hfound ↦
      hopened.keeps (hkeeps hfound)⟩
    · rw [Evaluation.bindPrimitives, hname]
      simp only [bind, EStateM.bind, Machine.perform, hprimitive, Machine.change]
      exact hrest
    · intro other hother
      cases hother with
      | head => exact ⟨node, hopened.keeps hlookup⟩
      | tail _ hother => exact hopened.stocked other hother

end Opening

end Whence
