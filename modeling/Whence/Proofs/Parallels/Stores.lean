import Whence.Proofs.Nesting
import Whence.Proofs.Persistence

/-!
# A store without revisions beside one with revisions

An evaluation at a late revision can be compared with one on a store in which no revision was ever
opened.  The two stores have the same nodes and environments, and what the history of a node has to do
with what the first store knows of the node is left open here.  A write to the one store goes along
with the same write to the other one as soon as it does so on the history of its node.
-/

namespace Whence

namespace History

variable {history final : History} {current other : Revision} {knowledge : Knowledge}

/-- A write is kept apart from what the other revisions have written. -/
theorem Commits.held?_of_ne {lineage : List Revision}
    (hcommits : Commits history lineage current knowledge final) (hother : other ≠ current) :
    final.held? other = history.held? other := by
  cases hcommits with
  | blank _ => rfl
  | amend _ _ =>
    rw [held?, lookup_amend, if_neg hother]
    rfl
  | record hnone _ hrecords => exact (hrecords.held? hnone).2 hother

end History

namespace Store

variable {store final layered : Store} {node : NodeId} {address : Address} {knowledge : Knowledge}
  {relates : History → Revision → List Revision → Option Knowledge → Prop}

/-- The stores have the same nodes.  `relates` says what the history of a node has to do with what the
first store knows of the node, given the current revision and its ancestors. -/
structure Parallels (relates : History → Revision → List Revision → Option Knowledge → Prop)
    (store layered : Store) : Prop where
  alike : store.Alike layered
  intact : layered.Intact
  relates : ∀ {ancestors},
    layered.revisions.lineage layered.current = layered.current :: ancestors → ∀ node,
      relates (layered.node node).history layered.current ancestors (store.knowledge? node)
  /-- No revision has written before it was opened. -/
  unopened : ∀ {revision}, layered.revisions.contains revision = false →
    ∀ node, (layered.node node).history.held? revision = none

namespace Parallels

theorem mono {relates' : History → Revision → List Revision → Option Knowledge → Prop}
    (hmono : ∀ {history current ancestors known}, relates history current ancestors known →
      relates' history current ancestors known) (hparallels : store.Parallels relates layered) :
    store.Parallels relates' layered where
  alike := hparallels.alike
  intact := hparallels.intact
  relates hlineage node := hmono (hparallels.relates hlineage node)
  unopened := hparallels.unopened

theorem withEnvs (hparallels : store.Parallels relates layered) (envs : Environments) :
    Parallels relates { store with envs } { layered with envs } where
  alike := ⟨hparallels.alike.size, hparallels.alike.address, hparallels.alike.ids, rfl,
    hparallels.alike.library⟩
  intact := ⟨hparallels.intact.ids⟩
  relates := hparallels.relates
  unopened := hparallels.unopened

theorem allot (hparallels : store.Parallels relates layered)
    (hlookup : store.lookup? address = none) :
    (store.allot address).Parallels relates (layered.allot address) := by
  have hlookup' := (hparallels.alike.lookup? address).trans hlookup
  have hregister : (layered.register address).2 = layered.allot address := by
    rw [register_of_none hlookup']
  have hhistory (node : NodeId) :
      ((layered.allot address).node node).history = (layered.node node).history := by
    rw [← hregister, history_register]
  refine ⟨⟨?_, fun node ↦ ?_, ?_, hparallels.alike.envs, hparallels.alike.library⟩,
    hregister ▸ (Step.register layered address).intact hparallels.intact, fun hlineage node ↦ ?_,
    fun hcontains node ↦ ?_⟩
  · rw [size_allot, size_allot, hparallels.alike.size]
  · rw [Store.address, Store.address, node_allot, node_allot, hparallels.alike.size]
    split
    · rfl
    · exact hparallels.alike.address node
  · rw [Store.allot, Store.allot, hparallels.alike.ids, hparallels.alike.size]
  · rw [hhistory, knowledge?_allot]
    exact hparallels.relates hlineage node
  · rw [hhistory]
    exact hparallels.unopened hcontains node

theorem register (hparallels : store.Parallels relates layered) (address : Address) :
    (layered.register address).1 = (store.register address).1 ∧
      (store.register address).2.Parallels relates (layered.register address).2 := by
  cases hlookup : store.lookup? address with
  | some node =>
    rw [register_of_lookup hlookup,
      register_of_lookup ((hparallels.alike.lookup? address).trans hlookup)]
    exact ⟨rfl, hparallels⟩
  | none =>
    rw [register_of_none hlookup,
      register_of_none ((hparallels.alike.lookup? address).trans hlookup), hparallels.alike.size]
    exact ⟨rfl, hparallels.allot hlookup⟩

theorem spawn (hparallels : store.Parallels relates layered)
    (hopened : ∀ node, (layered.node node).history.held? layered.spawn.2.current = none →
      relates (layered.node node).history layered.spawn.2.current
        (layered.revisions.lineage layered.current) (store.knowledge? node)) :
    store.Parallels relates layered.spawn.2 where
  alike := ⟨hparallels.alike.size, hparallels.alike.address, hparallels.alike.ids,
    hparallels.alike.envs, hparallels.alike.library⟩
  intact := Move.spawn.intact hparallels.intact
  relates {ancestors} hlineage node := by
    obtain ⟨-, rfl⟩ :=
      List.cons.inj (hlineage.symm.trans (Revisions.lineage_spawn_current layered.revisions))
    exact hopened node
      (hparallels.unopened (Revisions.contains_spawn_current layered.revisions) node)
  unopened {revision} hcontains node := by
    refine hparallels.unopened ?_ node
    by_contra hold
    rw [Bool.not_eq_false] at hold
    exact Bool.noConfusion (hcontains.symm.trans (Revisions.contains_spawn hold))

/-- An accepted write to the one store belongs to one to the other if its history is as it should be
afterwards. -/
theorem setHistory (hparallels : store.Parallels relates layered) (hnode : store.Contains node)
    {history : History} (hrevised : layered.revised node knowledge = .ok history)
    (halike : store.Alike final)
    (hrelates : ∀ {ancestors},
      layered.revisions.lineage layered.current = layered.current :: ancestors →
        relates history layered.current ancestors (final.knowledge? node))
    (hothers : ∀ other, node ≠ other → final.knowledge? other = store.knowledge? other) :
    final.Parallels relates (layered.setHistory node history) := by
  have hnode' := hparallels.alike.contains.2 hnode
  refine ⟨⟨?_, fun other ↦ ?_, ?_, ?_, ?_⟩, (Step.commit hrevised).intact hparallels.intact,
    fun hlineage other ↦ ?_, fun {revision} hcontains other ↦ ?_⟩
  · rw [size_setHistory, hparallels.alike.size, halike.size]
  · rw [address_setHistory hnode', hparallels.alike.address, halike.address]
  · exact hparallels.alike.ids.trans halike.ids.symm
  · exact hparallels.alike.envs.trans halike.envs.symm
  · exact hparallels.alike.library.trans halike.library.symm
  · rw [node_setHistory hnode']
    split
    case isTrue heq => exact heq ▸ hrelates hlineage
    case isFalse hne =>
      rw [hothers other hne]
      exact hparallels.relates hlineage other
  · rw [node_setHistory hnode']
    split
    case isTrue heq =>
      have hother : revision ≠ layered.current := by
        rintro rfl
        exact Bool.noConfusion (hcontains.symm.trans layered.revisions.contains_current)
      exact ((History.commit_spec hrevised).held?_of_ne hother).trans
        (hparallels.unopened hcontains node)
    case isFalse => exact hparallels.unopened hcontains other

end Parallels

/-- An accepted write that loses nothing enters what is new, or finds that nothing is. -/
theorem Rooted.write_cases (hrooted : store.Rooted) (hblank : knowledge.isBlank = false)
    (hwrite : write address knowledge store = .ok node final)
    (hkept : ∀ {known}, store.knowledge? node = some known → final.knowledge? node = some known) :
    (store.knowledge? node = none ∧ final = (store.register address).2.enter node knowledge) ∨
      ∃ known, store.knowledge? node = some known ∧ merge known knowledge = .ok known ∧
        (store.register address).2 = store ∧ final = store := by
  obtain ⟨rfl, history, hfinal, hcommits⟩ := write_ok hwrite
  cases hknown : store.knowledge? (store.register address).1 with
  | none =>
    rw [write_of_unknown hrooted address hblank hknown] at hwrite
    exact .inl ⟨rfl, (EStateM.Result.ok.inj hwrite).2.symm⟩
  | some known =>
    have hcontains := contains_of_knowledge hknown
    cases hlookup : store.lookup? address with
    | none =>
      rw [register_of_none hlookup] at hcontains
      exact absurd hcontains (Nat.lt_irrefl _)
    | some node =>
      rw [register_of_lookup hlookup] at hwrite hfinal hcommits hkept hknown hcontains ⊢
      dsimp only at hwrite hfinal hcommits hkept hknown hcontains
      have hentry := (knowledge?_of_revisions hrooted.revisions node).symm.trans hknown
      have hrevisions : (store.setHistory node history).revisions = {} := hrooted.revisions
      have hkept' := hkept hknown
      rw [hfinal, knowledge?_of_revisions hrevisions, node_setHistory hcontains, if_pos rfl] at hkept'
      rw [hrooted.lineage.2] at hcommits
      cases hcommits with
      | blank hblank' => exact Bool.noConfusion (hblank.symm.trans hblank')
      | amend hown hmerge =>
        rw [hentry] at hown
        cases hown
        rw [History.lookup_amend, if_pos rfl, hentry, Option.map_some, Option.some.injEq] at hkept'
        subst hkept'
        rw [write_of_known hrooted hlookup hknown hblank hmerge] at hwrite
        exact .inr ⟨_, rfl, hmerge, rfl, (EStateM.Result.ok.inj hwrite).2.symm⟩
      | record hnone _ _ =>
        rw [hentry] at hnone
        cases hnone

/-- A write that its history accepts is accepted. -/
theorem exists_revised (node : NodeId) (knowledge : Knowledge) (known : Option Knowledge)
    (hcommit : ∀ {ancestors : List Revision},
      layered.revisions.lineage layered.current = layered.current :: ancestors →
      layered.current ∉ ancestors → ∃ history, (layered.node node).history.commit
        (layered.current :: ancestors) layered.current knowledge = .ok history ∧
          relates history layered.current ancestors known) :
    ∃ history, layered.revised node knowledge = .ok history ∧ ∀ {ancestors},
      layered.revisions.lineage layered.current = layered.current :: ancestors →
        relates history layered.current ancestors known := by
  obtain ⟨ancestors, hlineage, hyounger⟩ := layered.revisions.exists_ancestors layered.current
  obtain ⟨history, hrevised, hrelates⟩ :=
    hcommit hlineage fun hmem ↦ Nat.lt_irrefl _ (hyounger _ hmem)
  refine ⟨history, ?_, fun {ancestors'} hlineage' ↦ ?_⟩
  · rw [← hrevised, revised]
    exact congrArg (History.commit _ · _ _) hlineage
  · obtain ⟨-, rfl⟩ := List.cons.inj (hlineage.symm.trans hlineage')
    exact hrelates

namespace Parallels

/-- A write that loses nothing in the one store is accepted by the other one, provided that histories
accept what is new and what is known. -/
theorem write (hparallels : store.Parallels relates layered) (hrooted : store.Rooted)
    (hblank : knowledge.isBlank = false) (hwrite : write address knowledge store = .ok node final)
    (hkept : ∀ {known}, store.knowledge? node = some known → final.knowledge? node = some known)
    (hnew : ∀ {ancestors}, layered.revisions.lineage layered.current = layered.current :: ancestors →
      layered.current ∉ ancestors → store.knowledge? node = none →
      final.knowledge? node = some knowledge →
      relates (layered.node node).history layered.current ancestors none →
        ∃ history, (layered.node node).history.commit (layered.current :: ancestors) layered.current
          knowledge = .ok history ∧ relates history layered.current ancestors (some knowledge))
    (hknown : ∀ {ancestors held}, layered.current ∉ ancestors →
      relates (layered.node node).history layered.current ancestors (some held) →
      merge held knowledge = .ok held →
        ∃ history, (layered.node node).history.commit (layered.current :: ancestors) layered.current
          knowledge = .ok history ∧ relates history layered.current ancestors (some held)) :
    ∃ final', Store.write address knowledge layered = .ok node final' ∧
      final.Parallels relates final' := by
  obtain ⟨hid, hregistered⟩ := hparallels.register address
  have hrooted' := register_rooted hrooted address
  have hnode : node = (store.register address).1 := (write_ok hwrite).1
  have hcontains : (store.register address).2.Contains node :=
    hnode ▸ hrooted'.contains_of_lookup (lookup?_register store address)
  have hrevisions : (layered.register address).2.revisions = layered.revisions :=
    (Step.register layered address).revisions_eq
  have hcurrent : (layered.register address).2.current = layered.current :=
    congrArg Revisions.current hrevisions
  have hwrite' {history : History}
      (hrevised : (layered.register address).2.revised node knowledge = .ok history) :
      Store.write address knowledge layered =
        .ok node ((layered.register address).2.setHistory node history) := by
    rw [write_eq, hid, ← hnode, hrevised]
  obtain ⟨hunknown, rfl⟩ | ⟨known, hheld, hmerge, hsame, rfl⟩ :=
    hrooted.write_cases hblank hwrite hkept
  · have hentered (other : NodeId) :
        ((store.register address).2.enter node knowledge).knowledge? other = _ :=
      knowledge?_enter hrooted' hcontains other
    obtain ⟨history, hrevised, hrelates⟩ := exists_revised node knowledge (some knowledge)
      fun {ancestors} hlineage hyounger ↦ by
        have hrelates := hregistered.relates hlineage node
        rw [knowledge?_register, hunknown] at hrelates
        rw [history_register, hcurrent] at hrelates ⊢
        rw [hrevisions, hcurrent] at hlineage
        exact hnew hlineage (hcurrent ▸ hyounger) hunknown (by rw [hentered, if_pos rfl]) hrelates
    refine ⟨_, hwrite' hrevised, hregistered.setHistory hcontains hrevised
      ⟨size_enter _ _ _, address_enter hcontains, rfl, rfl, rfl⟩ (fun hlineage ↦ ?_)
      fun other hother ↦ ?_⟩
    · rw [hentered, if_pos rfl]
      exact hrelates hlineage
    · rw [hentered, if_neg hother]
  · rw [hsame] at hregistered hcontains
    obtain ⟨history, hrevised, hrelates⟩ := exists_revised node knowledge (some known)
      fun {ancestors} hlineage hyounger ↦ by
        have hrelates := hregistered.relates hlineage node
        rw [hheld] at hrelates
        rw [history_register, hcurrent] at hrelates ⊢
        exact hknown (hcurrent ▸ hyounger) hrelates hmerge
    rw [← hheld] at hrelates
    exact ⟨_, hwrite' hrevised, hregistered.setHistory hcontains hrevised
      ⟨rfl, fun _ ↦ rfl, rfl, rfl, rfl⟩ hrelates fun _ _ ↦ rfl⟩

/-- Taking in a value is the same write to both stores, once they have registered the same address. -/
theorem input_eq (hparallels : store.Parallels relates layered) (value : Value) :
    ∃ address middle middle', middle = (store.register (.input ⟨store.size⟩)).2 ∧
      middle' = (layered.register (.input ⟨store.size⟩)).2 ∧ middle.Parallels relates middle' ∧
      Store.input value store = Store.write address (.of .given value) middle ∧
      Store.input value layered = Store.write address (.of .given value) middle' := by
  obtain ⟨hid, hregistered⟩ := hparallels.register (.input ⟨store.size⟩)
  have hfresh : layered.fresh = layered.register (.input ⟨store.size⟩) := by
    rw [← hparallels.alike.size]
    rfl
  refine ⟨_, _, _, rfl, rfl, hregistered, Store.input_eq store value, ?_⟩
  rw [Store.input_eq, hfresh, hid, hregistered.alike.address]
  rfl

end Parallels

end Store

/-- Two machines that remember the same outcomes go on to do so. -/
theorem Companion.remembers_of_memo {program : Program} {companion : Companion program}
    (settings : Settings) (evaluate : Evaluator)
    (hmemo : ∀ {machine machine'}, companion.tie machine machine' →
      machine'.memo = ⟨machine'.store.current, machine.memo.outcomes⟩)
    (hlearns : ∀ {store store' memo memo'}, companion.tie ⟨store, memo⟩ ⟨store', memo'⟩ →
      ∀ outcomes, companion.tie ⟨store, ⟨memo.revision, outcomes⟩⟩
        ⟨store', ⟨store'.current, outcomes⟩⟩) :
    companion.Remembers settings settings evaluate where
  synchronized htie _ _ := Machine.synchronize_of_revision (by rw [hmemo htie])
  recalls htie hremembered := by
    rw [Machine.remembered?, hmemo htie]
    exact hremembered
  foresees htie _ _ hremembered hremembered' := by
    rw [Machine.remembered?, hmemo htie] at hremembered'
    cases hremembered.symm.trans hremembered'
  learns := by
    rintro ⟨store, memo⟩ ⟨store', memo'⟩ request outcome htie - -
    obtain rfl : memo' = ⟨store'.current, memo.outcomes⟩ := hmemo htie
    cases hmemoize : settings.memoize with
    | false => rwa [Machine.remember_of_off hmemoize, Machine.remember_of_off hmemoize]
    | true =>
      simp only [Machine.remember, hmemoize]
      exact hlearns htie _

end Whence
