import Whence.Proofs.Edits.Following

/-!
# Changing an input

A change of an input, made before anything was evaluated in its revision, leaves a store that is right
once it has been brought up to date: the input shows its new value, and whatever does not hold any more
was written by an earlier revision.
-/

namespace Whence

variable {program : Program} {store layered final : Store} {node : NodeId} {value : Value}
  {knowledge held : Knowledge}

/-- The value may be that of the input: it is data made of earlier nodes, or a primitive without
operands. -/
structure Value.Suits (node : NodeId) (value : Value) : Prop where
  raw : value.isRaw = true
  earlier : ∀ child ∈ value.children, child.index < node.index

namespace Value.Suits

theorem within (hsuits : value.Suits node) (hnode : store.Contains node) : value.Within store := by
  cases value with
  | number _ | text _ => trivial
  | closure _ => cases hsuits.raw
  | constructor tag args => exact fun arg harg ↦ Nat.lt_trans (hsuits.earlier arg harg) hnode
  | primitive primitive =>
    cases primitive with
    | unary _ | binary _ => trivial
    | partially _ _ => cases hsuits.raw

/-- Only numbers can be told apart from a value that may be given and says the same. -/
theorem of_below {later : Value} (hsuits : value.Suits node) (hbelow : below value later) :
    later.Suits node := by
  cases hbelow with
  | number _ => exact ⟨rfl, nofun⟩
  | closure _ => cases hsuits.raw
  | text _ | primitive _ | constructor _ _ => exact hsuits

end Value.Suits

/-- The knowledge is that of an input. -/
def Knowledge.Suits (node : NodeId) (knowledge : Knowledge) : Prop :=
  ∃ value, knowledge = .of .given value ∧ value.Suits node

theorem Knowledge.Suits.of_below (hsuits : knowledge.Suits node) (hbelow : below knowledge held) :
    held.Suits node := by
  obtain ⟨value, rfl, hvalue⟩ := hsuits
  obtain ⟨hexplanation, hlater⟩ := hbelow
  obtain ⟨_, hexplanation, rfl⟩ := Merge.below_some_iff.1 hexplanation
  obtain ⟨later, hlater, hbelow⟩ := Merge.below_some_iff.1 hlater
  obtain ⟨_, _⟩ := held
  cases hexplanation
  cases hlater
  exact ⟨later, rfl, hvalue.of_below hbelow⟩

namespace History

variable {history final : History} {current : Revision} {ancestors : List Revision}

/-- After a write the revision sees something above what was written, or what it has seen before, or
something above that. -/
theorem Commits.visible?_above (hblank : knowledge.isBlank = false)
    (hcommits : Commits history (current :: ancestors) current knowledge final) :
    ∃ held, final.visible? (current :: ancestors) = some held ∧ (below knowledge held ∨
      ∃ old, history.visible? (current :: ancestors) = some old ∧ below old held) := by
  cases hcommits with
  | blank hblank' => cases hblank.symm.trans hblank'
  | amend hown hmerge =>
    exact ⟨_, visible?_of_lookup (lookup_amend_self hown), .inl (below_right hmerge)⟩
  | record hnone hwritten hrecords =>
    have hbelow := (below_written hwritten).1
    cases hrecords with
    | first _ | replace _ _ =>
      exact ⟨_, visible?_of_lookup (lookup_enter_self hnone), .inl hbelow⟩
    | extend hvisible hmerge =>
      exact ⟨_, visible?_of_lookup (lookup_enter_self hnone), .inr ⟨_, hvisible, below_left hmerge⟩⟩
    | echo hvisible _ _ => exact ⟨_, hvisible, .inr ⟨_, hvisible, below_refl _⟩⟩

end History

namespace Store

/-- The current revision has not yet written anything about an expression. -/
def Unwritten (store : Store) : Prop := ∀ node env expr,
  store.address node = .evaluation env expr → (store.node node).history.held? store.current = none

namespace Corrects

variable (hcorrects : store.Corrects layered)
include hcorrects

theorem named (htidy : Tidy program store) : layered.Named where
  ids {address node} := by
    rw [hcorrects.alike.lookup?, hcorrects.alike.contains, hcorrects.alike.address]
    exact htidy.ids
  inputs {node source} hnode haddress := by
    rw [hcorrects.alike.address] at haddress
    exact (htidy.input (hcorrects.alike.contains.1 hnode) haddress).1

/-- Inputs are the same in both stores. -/
theorem given (htidy : Tidy program store) {source : NodeId} (hnode : layered.Contains node)
    (haddress : layered.address node = .input source) : ∃ value,
      store.knowledge? node = some (.of .given value) ∧
      layered.knowledge? node = some (.of .given value) ∧
      ∀ child ∈ value.children, child.index < node.index := by
  rw [hcorrects.alike.address] at haddress
  obtain ⟨-, value, hknown, hearlier⟩ := htidy.input (hcorrects.alike.contains.1 hnode) haddress
  exact ⟨value, hknown, hcorrects.knowledge?_eq hknown, hearlier⟩

theorem rawInputs (htidy : Tidy program store) (hraw : store.RawInputs) : layered.RawInputs := by
  intro node source value haddress hvalue
  obtain ⟨value', hknown, hknown', -⟩ :=
    hcorrects.given htidy (contains_of_value hvalue) haddress
  rw [value?_of_knowledge hknown'] at hvalue
  cases hvalue
  rw [hcorrects.alike.address] at haddress
  exact hraw node source value haddress (value?_of_knowledge hknown)

theorem supplied (htidy : Tidy program store) : layered.Supplied where
  input hnode haddress := by
    obtain ⟨value, hknown, hknown', hearlier⟩ := hcorrects.given htidy hnode haddress
    exact ⟨value, hknown', hcorrects.alike.within.2 (htidy.within (value?_of_knowledge hknown)),
      hearlier⟩
  library hmem := by
    rw [hcorrects.alike.library] at hmem
    exact hcorrects.knowledge?_eq (htidy.library hmem).1

theorem suits (htidy : Tidy program store) (hraw : store.RawInputs) {source : NodeId}
    (hnode : layered.Contains node) (haddress : layered.address node = .input source) :
    ∃ knowledge, layered.knowledge? node = some knowledge ∧ knowledge.Suits node := by
  obtain ⟨value, -, hknown, hearlier⟩ := hcorrects.given htidy hnode haddress
  exact ⟨_, hknown, value, rfl,
    hcorrects.rawInputs htidy hraw node source value haddress (value?_of_knowledge hknown), hearlier⟩

end Corrects

/-- Taking in a value writes nothing about an expression. -/
theorem Unwritten.input (hunwritten : layered.Unwritten) (hnamed : layered.Named)
    (hinput : Store.input value layered = .ok node final) : final.Unwritten := by
  have hcontains : (layered.allot (.input ⟨layered.size⟩)).Contains ⟨layered.size⟩ := by
    simp [Contains, size_allot]
  rw [hnamed.input_eq] at hinput
  obtain ⟨rfl, rfl⟩ := EStateM.Result.ok.inj hinput
  intro other env expr haddress
  rw [address_setHistory hcontains, Store.address, node_allot] at haddress
  rw [node_setHistory hcontains, node_allot]
  split at haddress
  case isTrue => cases haddress
  case isFalse hindex =>
    have hother : (⟨layered.size⟩ : NodeId) ≠ other := by
      rintro rfl
      exact hindex rfl
    rw [if_neg hother, if_neg hindex]
    exact hunwritten _ _ _ haddress

/-- What changing an input leaves behind. -/
structure Updated (store : Store) (node : NodeId) (final : Store) : Prop where
  alike : store.Alike final
  revisions : final.revisions = store.revisions
  histories : ∀ {other}, other ≠ node → (final.node other).history = (store.node other).history

/-- An input that was handed out is changed by a write to its node, or not at all. -/
theorem update_cases (hnamed : layered.Named) (hnode : layered.Contains node) (value : Value) :
    (∃ final, Store.update node value layered = .ok () final ∧ layered.Updated node final ∧
      History.Commits (layered.node node).history (layered.revisions.lineage layered.current)
        layered.current (.of .given value) (final.node node).history) ∨
      ∃ error, Store.update node value layered = .error error layered := by
  have hlookup : layered.lookup? (layered.address node) = some node := hnamed.ids.2 ⟨hnode, rfl⟩
  rw [update_eq, write_eq, register_of_lookup hlookup]
  cases hrevised : layered.revised node (.of .given value) with
  | error conflict => exact .inr ⟨_, rfl⟩
  | ok history =>
    refine .inl ⟨_, rfl, ⟨alike_setHistory hnode _, rfl,
      fun hother ↦ ?_⟩, ?_⟩
    · rw [node_setHistory hnode, if_neg hother.symm]
    · rw [node_setHistory hnode, if_pos rfl]
      exact History.commit_spec hrevised

namespace Updated

variable (hupdated : layered.Updated node final)
include hupdated

theorem current : final.current = layered.current := congrArg Revisions.current hupdated.revisions

theorem knowledge?_of_ne {other : NodeId} (hother : other ≠ node) :
    final.knowledge? other = layered.knowledge? other := by
  rw [Store.knowledge?, knowledgeAt?, hupdated.histories hother, hupdated.current, hupdated.revisions,
    Store.knowledge?, knowledgeAt?]

theorem intact (hintact : layered.Intact) : final.Intact where
  ids hlookup := by
    rw [hupdated.alike.lookup?] at hlookup
    exact hupdated.alike.contains.2 (hintact.ids hlookup)

theorem unwritten (hunwritten : layered.Unwritten) {source : NodeId}
    (haddress : layered.address node = .input source) : final.Unwritten := by
  intro other env expr hevaluation
  rw [hupdated.alike.address] at hevaluation
  have hother : other ≠ node := by
    rintro rfl
    cases haddress.symm.trans hevaluation
  rw [hupdated.histories hother, hupdated.current]
  exact hunwritten _ _ _ hevaluation

/-- Inputs are in order if the one that was changed is. -/
theorem supplied (hsupplied : layered.Supplied) (hlibrary : layered.isLibrary node = false)
    (hnode : layered.Contains node)
    (hsuits : ∃ knowledge, final.knowledge? node = some knowledge ∧ knowledge.Suits node) :
    final.Supplied where
  input {other source} hother haddress := by
    by_cases hsame : other = node
    · obtain ⟨_, hknown, value, rfl, hvalue⟩ := hsuits
      exact ⟨value, hsame ▸ hknown, hupdated.alike.within.2 (hvalue.within hnode),
        hsame ▸ hvalue.earlier⟩
    · rw [hupdated.alike.address] at haddress
      obtain ⟨value, hknown, hwithin, hearlier⟩ :=
        hsupplied.input (hupdated.alike.contains.1 hother) haddress
      exact ⟨value, (hupdated.knowledge?_of_ne hsame).trans hknown, hupdated.alike.within.2 hwithin,
        hearlier⟩
  library {primitive other} hmem := by
    rw [hupdated.alike.library] at hmem
    have hother : other ≠ node := by
      rintro rfl
      rw [isLibrary, List.any_eq_false] at hlibrary
      exact hlibrary _ hmem (beq_self_eq_true _)
    exact (hupdated.knowledge?_of_ne hother).trans (hsupplied.library hmem)

theorem rawInputs (hraw : layered.RawInputs)
    (hsuits : ∃ knowledge, final.knowledge? node = some knowledge ∧ knowledge.Suits node) :
    final.RawInputs := by
  intro other source value haddress hvalue
  by_cases hsame : other = node
  · obtain ⟨_, hknown, value', rfl, hsuits⟩ := hsuits
    rw [hsame, value?_of_knowledge hknown] at hvalue
    cases hvalue
    exact hsuits.raw
  · rw [hupdated.alike.address] at haddress
    rw [value?_eq, hupdated.knowledge?_of_ne hsame, ← value?_eq] at hvalue
    exact hraw other source value haddress hvalue

end Updated

/-- A node that does not exist has no history. -/
theorem history_of_not_contains (hnode : ¬store.Contains node) : (store.node node).history = {} := by
  rw [node_eq_default hnode]
  rfl

/-- What does not hold is an expression, about which a revision that has written nothing holds
nothing. -/
theorem Unwritten.unheld (hunwritten : store.Unwritten) (hfails : ¬Holds program store node) :
    (store.node node).history.held? store.current = none := by
  by_cases hnode : store.Contains node
  · cases haddress : store.address node with
    | evaluation env expr => exact hunwritten _ _ _ haddress
    | input source => exact absurd (.input hnode haddress) hfails
  · rw [history_of_not_contains hnode]
    rfl

/-- A change of an input, before anything was evaluated in its revision, leaves inputs in order and a
store that is right when it has been brought up to date. -/
theorem Corrects.update (hcorrects : store.Corrects layered) (htidy : Tidy program store)
    (hraw : store.RawInputs) (hunwritten : layered.Unwritten) (hnode : layered.Contains node)
    {source : NodeId} (haddress : layered.address node = .input source)
    (hlibrary : layered.isLibrary node = false) (hsuits : value.Suits node)
    (hupdated : layered.Updated node final)
    (hcommits : History.Commits (layered.node node).history
      (layered.revisions.lineage layered.current) layered.current (.of .given value)
      (final.node node).history) :
    final.Supplied ∧ final.RawInputs ∧ (final.upToDate program).Corrects final := by
  obtain ⟨ancestors, hlineage⟩ := layered.exists_lineage_current
  have hlineage' : final.revisions.lineage final.current = layered.current :: ancestors := by
    rw [hupdated.revisions, hupdated.current, hlineage]
  rw [hlineage] at hcommits
  have hvisible : final.knowledge? node =
      (final.node node).history.visible? (layered.current :: ancestors) := by
    rw [Store.knowledge?, knowledgeAt?, hlineage']
  have hsuits : ∃ knowledge, final.knowledge? node = some knowledge ∧ knowledge.Suits node := by
    obtain ⟨held, hheld, habove⟩ := hcommits.visible?_above (Knowledge.isBlank_of _ _)
    refine ⟨held, hvisible.trans hheld, ?_⟩
    obtain hbelow | ⟨old, hold, hbelow⟩ := habove
    · exact Knowledge.Suits.of_below ⟨value, rfl, hsuits⟩ hbelow
    · obtain ⟨known, hknown, hsuits⟩ := hcorrects.suits htidy hraw hnode haddress
      rw [Store.knowledge?, knowledgeAt?, hlineage, hold] at hknown
      cases hknown
      exact hsuits.of_below hbelow
  refine ⟨hupdated.supplied (hcorrects.supplied htidy) hlibrary hnode hsuits,
    hupdated.rawInputs (hcorrects.rawInputs htidy hraw) hsuits,
    upToDate_corrects (hupdated.intact hcorrects.intact) ?_ ?_
      fun hfails ↦ (hupdated.unwritten hunwritten haddress).unheld hfails⟩
  · intro revision hcontains other
    rw [hupdated.revisions] at hcontains
    by_cases hsame : other = node
    · have hother : revision ≠ layered.current := by
        rintro rfl
        exact Bool.noConfusion (hcontains.symm.trans layered.revisions.contains_current)
      rw [hsame, hcommits.held?_of_ne hother]
      exact hcorrects.unopened hcontains node
    · rw [hupdated.histories hsame]
      exact hcorrects.unopened hcontains other
  · intro ancestors' hlineage'' other
    obtain ⟨-, rfl⟩ := List.cons.inj (hlineage''.symm.trans hlineage')
    rw [hupdated.current]
    by_cases hsame : other = node
    · have hbears := hcorrects.bears hlineage node
      rw [Store.knowledge?, knowledgeAt?, hlineage] at hbears
      rw [hsame, hvisible]
      exact hbears.commit hcommits
    · rw [hupdated.histories hsame, hupdated.knowledge?_of_ne hsame]
      exact hcorrects.bears hlineage other

end Store

end Whence
