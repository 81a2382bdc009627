import Whence.Proofs.Companion

/-!
# What is left after an edit

When an input has been edited, what was evaluated from its old value stays visible in the new revision
although nothing supports it any more.  A store is brought up to date by forgetting it, together with
all revisions.  What is left is sound, so an evaluation that starts from there is one from scratch that
makes use of what still holds.
-/

namespace Whence

variable {program : Program} {store layered : Store} {node : NodeId} {knowledge : Knowledge}

namespace Store

open Classical in
/-- What is known about the node and holds. -/
noncomputable def holding? (program : Program) (store : Store) (node : NodeId) : Option Knowledge :=
  if Holds program store node then store.knowledge? node else none

theorem holding?_eq_some : store.holding? program node = some knowledge ↔
    Holds program store node ∧ store.knowledge? node = some knowledge := by
  unfold holding?
  split
  case isTrue hholds => simp [hholds]
  case isFalse hfails => simp [hfails]

open Classical in
/-- What is visible of the node although it does not follow from the inputs of the current revision. -/
noncomputable def outdated? (program : Program) (store : Store) (node : NodeId) : Option Knowledge :=
  if Holds program store node then none else store.knowledge? node

theorem outdated?_eq_some : store.outdated? program node = some knowledge ↔
    ¬Holds program store node ∧ store.knowledge? node = some knowledge := by
  unfold outdated?
  split
  case isTrue hholds => simp [hholds]
  case isFalse hfails => simp [hfails]

theorem outdated?_of_holding? (hnone : store.holding? program node = none)
    (hknown : store.knowledge? node = some knowledge) :
    store.outdated? program node = some knowledge := by
  refine outdated?_eq_some.2 ⟨fun hholds ↦ ?_, hknown⟩
  rw [holding?_eq_some.2 ⟨hholds, hknown⟩] at hnone
  cases hnone

/-- The store as it would be if no revision had been opened and nothing outdated were known. -/
noncomputable def upToDate (program : Program) (store : Store) : Store :=
  { store with
    nodes := store.nodes.mapIdx fun index node ↦
      { node with history := .ofKnowledge (store.holding? program ⟨index⟩) }
    revisions := {} }

theorem size_upToDate (program : Program) (store : Store) :
    (store.upToDate program).size = store.size := by
  simp [upToDate, size]

theorem node_upToDate (hnode : store.Contains node) : (store.upToDate program).node node =
    { store.node node with history := .ofKnowledge (store.holding? program node) } := by
  have hindex : node.index < store.nodes.size := hnode
  simp [Store.node, upToDate, hindex]

theorem not_contains_upToDate (hnode : ¬store.Contains node) :
    ¬(store.upToDate program).Contains node := by
  rwa [Contains, size_upToDate]

theorem history_upToDate (program : Program) (store : Store) (node : NodeId) :
    ((store.upToDate program).node node).history = .ofKnowledge (store.holding? program node) := by
  by_cases hnode : store.Contains node
  · rw [node_upToDate hnode]
  · rw [node_eq_default (not_contains_upToDate hnode)]
    cases hheld : store.holding? program node with
    | none => rfl
    | some knowledge => exact absurd (contains_of_knowledge (holding?_eq_some.1 hheld).2) hnode

theorem knowledge?_upToDate (program : Program) (store : Store) (node : NodeId) :
    (store.upToDate program).knowledge? node = store.holding? program node := by
  rw [knowledge?_of_revisions rfl, history_upToDate]
  cases store.holding? program node with
  | none => rfl
  | some knowledge => exact List.lookup_cons_self

theorem knowledge?_upToDate_eq_some : (store.upToDate program).knowledge? node = some knowledge ↔
    Holds program store node ∧ store.knowledge? node = some knowledge := by
  rw [knowledge?_upToDate, holding?_eq_some]

theorem alike_upToDate (program : Program) (store : Store) : store.Alike (store.upToDate program) where
  size := size_upToDate program store
  address node := by
    by_cases hnode : store.Contains node
    · rw [Store.address, node_upToDate hnode, Store.address]
    · rw [Store.address, node_eq_default (not_contains_upToDate hnode), Store.address,
        node_eq_default hnode]
  ids := rfl
  envs := rfl
  library := rfl

theorem upToDate_grows (program : Program) (store : Store) :
    (store.upToDate program).Grows store :=
  (alike_upToDate program store).symm.grows fun hknown ↦ (knowledge?_upToDate_eq_some.1 hknown).2

/-- The inputs are given, refer to what exists and are made of earlier nodes, and those of the library
are its primitives. -/
structure Supplied (store : Store) : Prop where
  input : ∀ {node source}, store.Contains node → store.address node = .input source → ∃ value,
    store.knowledge? node = some (.of .given value) ∧ value.Within store ∧
      ∀ child ∈ value.children, child.index < node.index
  library : ∀ {primitive node}, (primitive, node) ∈ store.library →
    store.knowledge? node = some (.of .given (.primitive primitive.value))

end Store

/-- What is known and holds is known in full, and refers to what exists. -/
theorem Holds.exists_full (hsupplied : store.Supplied)
    (hlookup : ∀ {address node}, store.lookup? address = some node → store.Contains node)
    (hframed : ∀ {node env expr}, store.Contains node →
      store.address node = .evaluation env expr → store.envs.Contains env)
    (hholds : Holds program store node) :
    ∃ explanation value, store.knowledge? node = some (.of explanation value) ∧
      value.Within store := by
  induction hholds with
  | input hnode haddress =>
    obtain ⟨value, hknown, hwithin, -⟩ := hsupplied.input hnode haddress
    exact ⟨_, value, hknown, hwithin⟩
  | evaluation allowed haddress hknown hrule _ ih =>
    refine ⟨_, _, hknown, hrule.within hlookup (fun {source value} hsource hvalue ↦ ?_)
      (hframed (Store.contains_of_knowledge hknown) haddress)⟩
    obtain ⟨_, held, hheld, hwithin⟩ := ih source hsource
    rw [Store.value?_of_knowledge hheld] at hvalue
    cases hvalue
    exact hwithin

/-- The closure of a group holds whatever the inputs are. -/
theorem HoldsClosure.holds (hregular : program.Regular)
    (haddress : ∀ {address node}, store.lookup? address = some node → store.address node = address)
    {scope : Scope} {env : EnvId} {entry : GroupEntry}
    (hentry : entry ∈ (program.group scope.group).entries) (hcloses : Closes program store scope env)
    (hclosure : HoldsClosure store scope env entry.function node) : Holds program store node := by
  obtain ⟨demand, hexpr⟩ := hregular.literals hentry
  refine .evaluation (fun _ ↦ False) (haddress hclosure.lookup) hclosure.knowledge ?_
    fun _ hnone ↦ hnone.elim
  rw [hexpr]
  exact .function ⟨hcloses, entry, hentry, rfl⟩

section

variable (hsound : Sound program store) (halike : store.Alike layered)
include hsound halike

namespace Sound

theorem address_of_alike {address : Address} (hlookup : layered.lookup? address = some node) :
    layered.Contains node ∧ layered.address node = address := by
  rw [halike.lookup?] at hlookup
  exact ⟨halike.contains.2 (hsound.contains_of_lookup hlookup),
    (halike.address node).trans (hsound.address_of_lookup hlookup)⟩

theorem framed_of_alike {env : EnvId} {expr : ExprId} (hnode : layered.Contains node)
    (haddress : layered.address node = .evaluation env expr) : layered.envs.Contains env := by
  rw [halike.address] at haddress
  exact halike.envs ▸ (hsound.evaluation (halike.contains.1 hnode) haddress).1

/-- What holds in a store that is alike holds wherever it is still known. -/
theorem holds_of_alike {final : Store} (hcarries : layered.Carries program final)
    (halike' : layered.Alike final)
    (hknowledge : ∀ {node knowledge}, Holds program layered node →
      layered.knowledge? node = some knowledge → final.knowledge? node = some knowledge)
    (hholds : Holds program layered node) : Holds program final node :=
  hholds.carry (halike.envs ▸ hsound.envs) (halike.envs ▸ hsound.envs_scoped)
    (hsound.framed_of_alike halike) hcarries
    (fun hnode ↦ ⟨halike'.contains.2 hnode, halike'.address _⟩) hknowledge

/-- A store that is alike carries the groups if no expression has lost what was known of it. -/
theorem carries_of_alike (hkept : ∀ {node env expr knowledge},
      store.address node = .evaluation env expr → store.knowledge? node = some knowledge →
        layered.knowledge? node = some knowledge) : store.Carries program layered where
  lookup hlookup := by rwa [halike.lookup?]
  closures _ _ hholds :=
    ⟨by rw [halike.lookup?]; exact hholds.lookup,
      hkept (hsound.address_of_lookup hholds.lookup) hholds.knowledge⟩
  envs := halike.envs ▸ .refl _
  library := halike.library

/-- Bringing a store up to date keeps its groups. -/
theorem carries_upToDate (hregular : program.Regular) :
    layered.Carries program (layered.upToDate program) where
  lookup := id
  closures hentry hcloses hholds := ⟨hholds.lookup, Store.knowledge?_upToDate_eq_some.2
    ⟨hholds.holds hregular (fun hlookup ↦ (hsound.address_of_alike halike hlookup).2) hentry hcloses,
      hholds.knowledge⟩⟩
  envs := .refl _
  library := rfl

/-- Nothing that is sound is lost if it is still known. -/
theorem grows_upToDate (hkept : ∀ {node knowledge}, store.knowledge? node = some knowledge →
      layered.knowledge? node = some knowledge) : store.Grows (layered.upToDate program) := by
  refine (halike.trans (Store.alike_upToDate program layered)).grows fun {node knowledge} hknown ↦
    Store.knowledge?_upToDate_eq_some.2 ⟨?_, hkept hknown⟩
  obtain ⟨explanation, value, rfl⟩ := hsound.full hknown
  exact hsound.holds_grow (halike.grows hkept) (hsound.holds (Store.value?_of_knowledge hknown))

variable (hsupplied : layered.Supplied)
include hsupplied

theorem exists_full_of_alike (hholds : Holds program layered node) :
    ∃ explanation value, layered.knowledge? node = some (.of explanation value) ∧
      value.Within layered :=
  hholds.exists_full hsupplied (fun hlookup ↦ (hsound.address_of_alike halike hlookup).1)
    (hsound.framed_of_alike halike)

theorem value_upToDate {value : Value} (hvalue : (layered.upToDate program).value? node = some value) :
    Holds program layered node ∧ value.Within layered := by
  obtain ⟨_, hheld, hvalue⟩ := Option.bind_eq_some_iff.1 hvalue
  obtain ⟨hholds, hheld⟩ := Store.knowledge?_upToDate_eq_some.1 hheld
  obtain ⟨_, _, hfull, hwithin⟩ := hsound.exists_full_of_alike halike hsupplied hholds
  cases hheld.symm.trans hfull
  cases hvalue
  exact ⟨hholds, hwithin⟩

theorem rooted_upToDate : (layered.upToDate program).Rooted where
  revisions := rfl
  ids {address node} := by
    have hsame := halike.trans (Store.alike_upToDate program layered)
    rw [hsame.lookup?, hsame.contains, hsame.address]
    exact hsound.ids
  history node := by rw [Store.history_upToDate, Store.knowledge?_upToDate]
  full hknown := by
    obtain ⟨hholds, hknown⟩ := Store.knowledge?_upToDate_eq_some.1 hknown
    obtain ⟨explanation, value, hfull, -⟩ := hsound.exists_full_of_alike halike hsupplied hholds
    exact ⟨explanation, value, Option.some.inj (hknown.symm.trans hfull)⟩
  envs := halike.envs ▸ hsound.envs

/-- A store is sound when it has been brought up to date, if one like it was sound, its inputs are in
order and no expression has lost what was known of it. -/
theorem upToDate (hregular : program.Regular) (hkept : ∀ {node env expr knowledge},
      store.address node = .evaluation env expr → store.knowledge? node = some knowledge →
        layered.knowledge? node = some knowledge) : Sound program (layered.upToDate program) where
  toRooted := hsound.rooted_upToDate halike hsupplied
  evaluation {node env expr} hnode haddress := by
    have hsame := halike.trans (Store.alike_upToDate program layered)
    rw [hsame.address] at haddress
    rw [hsame.envs]
    exact hsound.evaluation (hsame.contains.1 hnode) haddress
  fits {env parent name binding} henv hparent hentries := by
    have hsame := halike.trans (Store.alike_upToDate program layered)
    rw [hsame.envs] at henv hparent hentries
    unfold Binding.Fits
    simp only [hsame.envs, hsame.contains]
    exact hsound.fits henv hparent hentries
  input {node source} hnode haddress := by
    have hrefreshed := Store.alike_upToDate program layered
    rw [hrefreshed.contains] at hnode
    rw [hrefreshed.address] at haddress
    obtain ⟨value, hknown, -, hchildren⟩ := hsupplied.input hnode haddress
    have hsource :=
      (hsound.input (halike.contains.1 hnode) ((halike.address node).symm.trans haddress)).1
    exact ⟨hsource, value,
      Store.knowledge?_upToDate_eq_some.2 ⟨.input hnode haddress, hknown⟩, hchildren⟩
  within hvalue := (Store.alike_upToDate program layered).within.2
    (hsound.value_upToDate halike hsupplied hvalue).2
  holds hvalue := hsound.holds_of_alike halike (hsound.carries_upToDate halike hregular)
    (Store.alike_upToDate program layered)
    (fun hholds hknown ↦ Store.knowledge?_upToDate_eq_some.2 ⟨hholds, hknown⟩)
    (hsound.value_upToDate halike hsupplied hvalue).1
  library {primitive node} hmem := by
    have hknown := hsupplied.library hmem
    have hnode := Store.contains_of_knowledge hknown
    have haddress : layered.address node = .input node :=
      (halike.address node).trans (hsound.library (halike.library ▸ hmem)).2
    exact ⟨Store.knowledge?_upToDate_eq_some.2 ⟨.input hnode haddress, hknown⟩,
      ((Store.alike_upToDate program layered).address node).trans haddress⟩
  closed {env name scope position} hmem := by
    rw [(halike.trans (Store.alike_upToDate program layered)).envs] at hmem
    obtain ⟨inner, members, hmembers⟩ := hsound.closed hmem
    exact ⟨inner, members, (hmembers.carry (hsound.carries_of_alike halike hkept)).carry
      (hsound.carries_upToDate halike hregular)⟩

end Sound

end

end Whence
