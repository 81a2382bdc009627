import Whence.Proofs.Finding.Basic
import Whence.Proofs.Histories
import Whence.Proofs.Soundness
import Whence.Proofs.Stopping

/-!
# Coherent stores

A store of which only the first revision is in use is coherent if addresses and nodes determine each
other and every environment that is mentioned anywhere has been handed out.  Nothing is asked of
where knowledge comes from: whatever has been written may be there, and a later write may say more
about the same node.  The operations of the store keep it coherent and refine it, whether they
succeed or fail.
-/

namespace Whence

namespace Address

/-- The environment of the address has been handed out. -/
def Framed (envs : Environments) : Address → Prop
  | .evaluation env _ => envs.Contains env
  | .input _ => True

end Address

namespace Value

/-- The environments that the value mentions have been handed out. -/
def Framed (envs : Environments) : Value → Prop
  | .closure made => envs.Contains made.env ∧ ∀ scope ∈ made.scope, envs.Contains scope.env
  | _ => True

end Value

namespace Knowledge

def Framed (envs : Environments) (knowledge : Knowledge) : Prop :=
  ∀ value ∈ knowledge.value, value.Framed envs

end Knowledge

namespace Binding

/-- The environment that the binding mentions has been handed out. -/
def Framed (envs : Environments) : Binding → Prop
  | .node _ => True
  | .recursive scope _ => envs.Contains scope.env

end Binding

variable {store final : Store} {node : NodeId} {address : Address} {knowledge : Knowledge}
  {envs envs' : Environments} {value : Value}

section Growth

variable (hgrows : envs.Grows envs')
include hgrows

theorem Address.Framed.grow (haddress : address.Framed envs) : address.Framed envs' := by
  cases address with
  | evaluation env expr => exact hgrows.contains haddress
  | input node => trivial

theorem Value.Framed.grow (hvalue : value.Framed envs) : value.Framed envs' := by
  cases value with
  | closure made =>
    exact ⟨hgrows.contains hvalue.1, fun scope hscope ↦ hgrows.contains (hvalue.2 scope hscope)⟩
  | _ => trivial

theorem Binding.Framed.grow {binding : Binding} (hbinding : binding.Framed envs) :
    binding.Framed envs' := by
  cases binding with
  | node id => trivial
  | recursive scope position => exact hgrows.contains hbinding

theorem Knowledge.Framed.grow (hknowledge : knowledge.Framed envs) : knowledge.Framed envs' :=
  fun value hvalue ↦ (hknowledge value hvalue).grow hgrows

end Growth

theorem Value.Flat.framed (hflat : value.Flat) : value.Framed envs := by
  cases hflat <;> trivial

/-- What merging keeps of pieces it keeps of pieces that may be absent. -/
theorem Merge.forall_mem_of_merge {α : Type} [Merge α] {holds : α → Prop}
    (hpieces : ∀ {left right merged : α}, holds left → holds right →
      merge left right = .ok merged → holds merged)
    {left right merged : Option α} (hleft : ∀ piece ∈ left, holds piece)
    (hright : ∀ piece ∈ right, holds piece) (hmerge : merge left right = .ok merged) :
    ∀ piece ∈ merged, holds piece := by
  change options left right = .ok merged at hmerge
  cases left with
  | none =>
    cases hmerge
    exact hright
  | some left =>
    cases right with
    | none =>
      cases hmerge
      exact hleft
    | some right =>
      obtain ⟨piece, hpiece, rfl⟩ := map_eq_ok.1 hmerge
      rintro _ ⟨⟩
      exact hpieces (hleft left rfl) (hright right rfl) hpiece

/-- Merging mentions no other environments. -/
theorem Value.Framed.merge {left right merged : Value} (hleft : left.Framed envs)
    (hright : right.Framed envs) (hmerge : Merge.merge left right = .ok merged) :
    merged.Framed envs := by
  cases Value.merges_of_merge hmerge with
  | closure hclosure =>
    obtain ⟨-, -, scope, hscope, rfl⟩ := Closure.merge_eq_ok_iff.1 hclosure
    refine ⟨hleft.1, Merge.forall_mem_of_merge ?_ hleft.2 hright.2 hscope⟩
    rintro outer _ _ houter - hmerge
    obtain ⟨-, rfl⟩ := merge_eq_ok.1 hmerge
    exact houter
  | _ => trivial

theorem Knowledge.Framed.merge {left right merged : Knowledge} (hleft : left.Framed envs)
    (hright : right.Framed envs) (hmerge : Merge.merge left right = .ok merged) :
    merged.Framed envs :=
  Merge.forall_mem_of_merge Value.Framed.merge hleft hright (Knowledge.merge_eq_ok_iff.1 hmerge).2

/-! ## Coherent stores -/

namespace Store

structure Coherent (store : Store) : Prop where
  revisions : store.revisions = {}
  ids : ∀ {address node}, store.lookup? address = some node ↔
    store.Contains node ∧ store.address node = address
  history : ∀ node, (store.node node).history = .ofKnowledge (store.knowledge? node)
  envs : store.envs.Canonical
  bindings : ∀ {env entry}, entry ∈ store.envs.entries env → entry.2.Framed store.envs
  addresses : ∀ {node}, store.Contains node → (store.address node).Framed store.envs
  knowledge : ∀ {node knowledge}, store.knowledge? node = some knowledge →
    knowledge.Framed store.envs

/-- Only nodes that have been handed out belong to an expression. -/
theorem contains_of_evaluation {env : EnvId} {expr : ExprId}
    (haddress : store.address node = .evaluation env expr) : store.Contains node := by
  apply Classical.byContradiction
  intro hnode
  rw [Store.address, node_eq_default hnode] at haddress
  cases haddress

namespace Coherent

theorem framed_value (hcoherent : store.Coherent) (hvalue : store.value? node = some value) :
    value.Framed store.envs := by
  obtain ⟨knowledge, hknown, hvalue⟩ := Option.bind_eq_some_iff.1 hvalue
  exact hcoherent.knowledge hknown value hvalue

theorem framed_address (hcoherent : store.Coherent) (node : NodeId) :
    (store.address node).Framed store.envs := by
  by_cases hnode : store.Contains node
  · exact hcoherent.addresses hnode
  · rw [Store.address, node_eq_default hnode]
    trivial

theorem empty : Coherent {} where
  revisions := rfl
  ids {address node} := by simp [lookup?, Contains, size]
  history node := by
    have hnode : ¬({} : Store).Contains node := Nat.not_lt_zero _
    rw [knowledge?_of_revisions rfl, node_eq_default hnode]
    rfl
  envs := .default
  bindings {env entry} hentry := by
    rw [Environments.entries_default] at hentry
    cases hentry
  addresses {node} hnode := absurd hnode (Nat.not_lt_zero _)
  knowledge {node knowledge} hknown := absurd (contains_of_knowledge hknown) (Nat.not_lt_zero _)

theorem register (hcoherent : store.Coherent) (haddress : address.Framed store.envs) :
    (store.register address).2.Coherent := by
  cases hlookup : store.lookup? address with
  | some node => rwa [register_of_lookup hlookup]
  | none =>
    rw [register_of_none hlookup]
    refine ⟨hcoherent.revisions, allot_ids hcoherent.ids hlookup,
      allot_history address hcoherent.history, hcoherent.envs, hcoherent.bindings,
      fun {node} hnode ↦ ?_, fun {node knowledge} hknown ↦ ?_⟩
    · by_cases hold : store.Contains node
      · rw [address_allot_of_contains hold]
        exact hcoherent.addresses hold
      · have hindex : node.index = store.size := by
          rw [Contains, size_allot] at hnode
          exact Nat.le_antisymm (Nat.le_of_lt_succ hnode) (Nat.le_of_not_lt hold)
        rw [Store.address, node_allot, if_pos hindex]
        exact haddress
    · rw [knowledge?_allot] at hknown
      exact hcoherent.knowledge hknown

theorem setHistory (hcoherent : store.Coherent) (hnode : store.Contains node)
    {later : Option Knowledge} (hlater : ∀ knowledge ∈ later, knowledge.Framed store.envs) :
    (store.setHistory node (.ofKnowledge later)).Coherent where
  revisions := hcoherent.revisions
  ids {address other} := by
    simp only [Contains, size_setHistory, address_setHistory hnode]
    exact hcoherent.ids
  history other := by
    rw [knowledge?_setHistory hcoherent.revisions hnode, node_setHistory hnode]
    split
    · rfl
    · exact hcoherent.history other
  envs := hcoherent.envs
  bindings := hcoherent.bindings
  addresses {other} hother := by
    rw [address_setHistory hnode]
    rw [Contains, size_setHistory] at hother
    exact hcoherent.addresses hother
  knowledge {other knowledge} hknown := by
    rw [knowledge?_setHistory hcoherent.revisions hnode] at hknown
    split at hknown
    · exact hlater knowledge hknown
    · exact hcoherent.knowledge hknown

end Coherent

/-- What is known tells the value. -/
theorem tells_of_below (hbelow : below (some knowledge) (store.knowledge? node))
    (hvalue : value ∈ knowledge.value) : store.Tells node value := by
  obtain ⟨later, hlater, -, hvalues⟩ := Merge.below_some_iff.1 hbelow
  rw [hvalue] at hvalues
  obtain ⟨value', hvalue', hbelow⟩ := Merge.below_some_iff.1 hvalues
  exact ⟨value', by rw [value?_eq, hlater]; exact hvalue', hbelow⟩

theorem refines_setHistory (hrevisions : store.revisions = {}) (hnode : store.Contains node)
    {later : Option Knowledge} (hbelow : below (store.knowledge? node) later) :
    (store.setHistory node (.ofKnowledge later)).Refines store where
  lookup := id
  value {other value} hvalue := by
    obtain ⟨knowledge, hknown, hvalue⟩ := Option.bind_eq_some_iff.1 hvalue
    refine tells_of_below ?_ hvalue
    rw [knowledge?_setHistory hrevisions hnode]
    split
    case isTrue hsame =>
      subst hsame
      exact hknown ▸ hbelow
    case isFalse => exact hknown ▸ below_refl _
  envs := .refl _

end Store

/-- A write before the first revision has been opened merges what is known and what is written. -/
theorem History.commit_ofKnowledge {known : Option Knowledge} {history : History}
    (hcommit : (ofKnowledge known).commit [.root] .root knowledge = .ok history) :
    ∃ later, history = ofKnowledge later ∧
      (knowledge.isBlank = true ∧ later = known ∨ merge known (some knowledge) = .ok later) := by
  cases commit_spec hcommit with
  | blank hblank => exact ⟨known, rfl, .inl ⟨hblank, rfl⟩⟩
  | @amend own merged hown hmerge =>
    cases known with
    | none => cases hown
    | some own' =>
      cases hown
      refine ⟨some merged, rfl, .inr ?_⟩
      change Except.map some (merge own knowledge) = _
      rw [hmerge]
      rfl
  | @record written _ hnone hwritten hrecords =>
    cases known with
    | some own => cases hnone
    | none =>
      cases hwritten
      cases hrecords with
      | first _ => exact ⟨some knowledge, rfl, .inr rfl⟩
      | echo hvisible _ _ | extend hvisible _ | replace hvisible _ => cases hvisible

namespace Store

/-- What holds after an operation, whether it has succeeded or failed. -/
structure Follows (final store : Store) : Prop where
  coherent : final.Coherent
  refines : final.Refines store

/-- Wherever the operation stops, the store is coherent and refined, and what it returns satisfies
the second condition. -/
def Ensures {α : Type} (operation : Storing α) (store : Store) (done : α → Store → Prop) : Prop :=
  Stops operation store (fun result final ↦ final.Follows store ∧ done result final)
    fun final ↦ final.Follows store

theorem Follows.refl (hcoherent : store.Coherent) : store.Follows store := ⟨hcoherent, .refl store⟩

theorem Follows.trans {middle : Store} (hsecond : final.Follows middle)
    (hfirst : middle.Follows store) : final.Follows store :=
  ⟨hsecond.coherent, hsecond.refines.trans hfirst.refines⟩

namespace Ensures

variable {α β : Type} {operation : Storing α} {next : α → Storing β} {between : α → Store → Prop}
  {done : β → Store → Prop}

theorem of_pure {result : β} (hcoherent : store.Coherent) (hdone : done result store) :
    Ensures (pure result) store done :=
  ⟨.refl hcoherent, hdone⟩

theorem bind (hfirst : Ensures operation store between)
    (hnext : ∀ {result middle}, middle.Follows store → between result middle →
      Ensures (next result) middle done) : Ensures (operation >>= next) store done := by
  refine Stops.bind hfirst (fun {result middle} hmiddle ↦ ?_) id
  exact Stops.mono (hnext hmiddle.1 hmiddle.2) (And.imp_left (·.trans hmiddle.1))
    (·.trans hmiddle.1)

theorem mono {done' : β → Store → Prop} {operation : Storing β}
    (hoperation : Ensures operation store done)
    (hdone : ∀ {result final}, done result final → done' result final) :
    Ensures operation store done' :=
  Stops.mono hoperation (And.imp_right hdone) id

theorem follows (hoperation : Ensures operation store between) :
    (stateAfter operation store).Follows store :=
  Stops.stateAfter hoperation And.left id

/-- The store is looked at. -/
theorem of_get {next : Store → Storing β} (hnext : Ensures (next store) store done) :
    Ensures (get >>= next) store done :=
  hnext

theorem of_modifyGet {change : Store → α × Store} (hfollows : (change store).2.Follows store) :
    Ensures (modifyGet change) store fun _ _ ↦ True :=
  ⟨hfollows, trivial⟩

/-- The node of a write tells what was written. -/
theorem write (hcoherent : store.Coherent) (haddress : address.Framed store.envs)
    (hknowledge : knowledge.Framed store.envs) :
    Ensures (Store.write address knowledge) store fun node final ↦
      final.lookup? address = some node ∧ ∀ value ∈ knowledge.value, final.Tells node value := by
  have hregistered := hcoherent.register haddress
  have hgrows := register_grows store address
  have hlookup := lookup?_register store address
  have hnode := (hregistered.ids.1 hlookup).1
  unfold Ensures Stops
  rw [write_eq]
  cases hrevised : (store.register address).2.revised (store.register address).1 knowledge with
  | error conflict => exact ⟨hregistered, hgrows.refines⟩
  | ok history =>
    rw [revised, hregistered.history, Store.current, hregistered.revisions] at hrevised
    obtain ⟨later, rfl, hlater⟩ := History.commit_ofKnowledge hrevised
    have hknown := knowledge?_setHistory hregistered.revisions hnode later (store.register address).1
    rw [if_pos rfl] at hknown
    obtain ⟨hblank, rfl⟩ | hmerge := hlater
    · -- Nothing is written, and the history stays as it is.
      refine ⟨⟨hregistered.setHistory hnode fun _ ↦ hregistered.knowledge,
        (refines_setHistory hregistered.revisions hnode (below_refl _)).trans hgrows.refines⟩,
        hlookup, fun value hvalue ↦ ?_⟩
      simp [Knowledge.isBlank, Option.mem_def.1 hvalue] at hblank
    · have hframed : ∀ known ∈ later, known.Framed (store.register address).2.envs := by
        refine Merge.forall_mem_of_merge Knowledge.Framed.merge (fun _ ↦ hregistered.knowledge) ?_
          hmerge
        rintro _ ⟨⟩
        exact hknowledge.grow hgrows.envs
      refine ⟨⟨hregistered.setHistory hnode hframed,
        (refines_setHistory hregistered.revisions hnode (below_left hmerge)).trans hgrows.refines⟩,
        hlookup, fun value ↦ tells_of_below ?_⟩
      rw [hknown]
      exact below_right hmerge

theorem input (hcoherent : store.Coherent) (hvalue : value.Framed store.envs) :
    Ensures (Store.input value) store fun _ _ ↦ True := by
  have hgrows : store.Grows store.fresh.2 := register_grows store _
  refine bind (of_modifyGet ⟨hcoherent.register trivial, hgrows.refines⟩) ?_
  refine fun {node middle} hmiddle _ ↦ of_get ?_
  refine mono (write hmiddle.coherent (hmiddle.coherent.framed_address node) ?_) fun _ ↦ trivial
  rintro _ ⟨⟩
  exact hvalue.grow hmiddle.refines.envs

theorem update (hcoherent : store.Coherent) (node : NodeId) (hvalue : value.Framed store.envs) :
    Ensures (Store.update node value) store fun _ _ ↦ True := by
  refine of_get (bind (write hcoherent (hcoherent.framed_address node) ?_) fun hfinal _ ↦
    of_pure hfinal.coherent trivial)
  rintro _ ⟨⟩
  exact hvalue

/-- The library has no part in whether a store is coherent. -/
theorem primitive (hcoherent : store.Coherent) (primitive : Primitive) :
    Ensures (Store.primitive primitive) store fun _ _ ↦ True := by
  refine of_get ?_
  cases store.library.lookup primitive with
  | some node => exact of_pure hcoherent trivial
  | none =>
    have hprimitive : (Value.primitive primitive.value).Framed store.envs := trivial
    refine bind (input hcoherent hprimitive) fun {node middle} hmiddle _ ↦ ?_
    have hcoherent' := hmiddle.coherent
    have hnoted : ({ middle with library := middle.library ++ [(primitive, node)] } : Store).Coherent :=
      ⟨hcoherent'.revisions, hcoherent'.ids, hcoherent'.history, hcoherent'.envs,
        hcoherent'.bindings, hcoherent'.addresses, hcoherent'.knowledge⟩
    exact bind (of_modifyGet ⟨hnoted, id, (Refines.refl middle).value, .refl _⟩)
      fun hfinal _ ↦ of_pure hfinal.coherent trivial

end Ensures

theorem Coherent.extendAll (hcoherent : store.Coherent) {env : EnvId}
    (henv : store.envs.Contains env) {bindings : List (Symbol × Binding)}
    (hbindings : ∀ entry ∈ bindings, entry.2.Framed store.envs) :
    Follows { store with envs := (store.envs.extendAll env bindings).2 } store := by
  obtain ⟨hgrows, hcanonical, -, -⟩ := Environments.extendAll_spec bindings hcoherent.envs henv
  refine ⟨⟨hcoherent.revisions, hcoherent.ids, hcoherent.history, hcanonical, ?_,
    fun hnode ↦ (hcoherent.addresses hnode).grow hgrows,
    fun hknown ↦ (hcoherent.knowledge hknown).grow hgrows⟩, (withEnvs_grows hgrows).refines⟩
  intro inner entry hentry
  by_cases hold : store.envs.Contains inner
  · rw [hgrows.entries_eq hold] at hentry
    exact (hcoherent.bindings hentry).grow hgrows
  · have hinner := Environments.contains_of_mem hentry
    obtain hnew | hentry :=
      Environments.mem_of_extendAll bindings hcoherent.envs henv hinner hold hentry
    · exact (hbindings entry hnew).grow hgrows
    · exact (hcoherent.bindings hentry).grow hgrows

end Store

end Whence
