import Whence.Proofs.Edits.Histories
import Whence.Proofs.Edits.Refreshing
import Whence.Proofs.Isolation

/-!
# Evaluating after an edit

An evaluation on a store that has been brought up to date is followed by the same evaluation on the
store itself, in which outdated values are still visible.  Operators, conditionals and calls evaluate
their operands, whatever is visible of them, and record anew what they find.  Only a node that an
environment binds, or that is an argument of a constructor, is taken as it stands if it has a value, so
the second evaluation goes astray at such a node if it is outdated.
-/

namespace Whence

variable {program : Program}

namespace Store

variable {store final layered : Store} {node : NodeId} {address : Address} {knowledge : Knowledge}

/-- The first store knows only what is right at the current revision of the second one, where more may
be visible. -/
abbrev Corrects (store layered : Store) : Prop := store.Parallels History.Bears layered

namespace Corrects

theorem knowledge?_eq (hcorrects : store.Corrects layered)
    (hknown : store.knowledge? node = some knowledge) :
    layered.knowledge? node = some knowledge := by
  obtain ⟨ancestors, hlineage⟩ := layered.exists_lineage_current
  have hbears := hcorrects.relates hlineage node
  rw [hknown] at hbears
  rw [Store.knowledge?, knowledgeAt?, hlineage, hbears.visible?]

theorem grows (hcorrects : store.Corrects layered) : store.Grows layered :=
  hcorrects.alike.grows hcorrects.knowledge?_eq

/-- What is right stays right when a revision is opened. -/
theorem spawn (hcorrects : store.Corrects layered) : store.Corrects layered.spawn.2 :=
  Parallels.spawn hcorrects fun _ hheld ↦ .opened hheld fun hknown ↦ hcorrects.knowledge?_eq hknown

/-- What is written to the store that is right is accepted by the other one, unless it counts as the
same as what is visible there although it is not. -/
theorem write (hcorrects : store.Corrects layered) (hrooted : store.Rooted)
    (hblank : knowledge.isBlank = false) (hwrite : write address knowledge store = .ok node final)
    (hkept : ∀ {known}, store.knowledge? node = some known → final.knowledge? node = some known)
    (hdistinct : ∀ {old merged}, store.knowledge? node = none → final.knowledge? node = some knowledge →
      layered.knowledge? node = some old → merge old knowledge = .ok merged → old = knowledge) :
    ∃ final', Store.write address knowledge layered = .ok node final' ∧ final.Corrects final' := by
  refine Parallels.write hcorrects hrooted hblank hwrite hkept
    (fun hlineage hcurrent hunknown hentered hbears ↦ ?_)
    (fun hcurrent hbears hmerge ↦ hbears.commit_known hcurrent hblank hmerge)
  refine hbears.commit_new hblank fun hold hmerge ↦ hdistinct hunknown hentered ?_ hmerge
  rwa [Store.knowledge?, knowledgeAt?, hlineage]

/-- An input is taken in under the same number. -/
theorem input (hcorrects : store.Corrects layered) (htidy : Tidy program store) {value : Value}
    (hinput : Store.input value store = .ok node final) (htaken : TakenIn store value node final) :
    ∃ final', Store.input value layered = .ok node final' ∧ final.Corrects final' := by
  obtain ⟨address, middle, middle', rfl, rfl, hregistered, hleft, hright⟩ := hcorrects.input_eq value
  rw [hleft] at hinput
  rw [hright]
  refine write hregistered (register_rooted htidy.toRooted _) (Knowledge.isBlank_of _ _) hinput
    (fun hknown ↦ ?_) fun _ _ hold _ ↦ ?_
  · rw [knowledge?_register] at hknown
    exact htaken.grows.knowledge hknown
  · rw [knowledge?_register] at hold
    have hnode := hcorrects.alike.contains.1 (contains_of_knowledge hold)
    rw [htaken.node_eq] at hnode
    exact absurd hnode (Nat.lt_irrefl _)

end Corrects

/-- A store that has been brought up to date is right if the current revision has written nothing that
is outdated. -/
theorem upToDate_corrects (hintact : layered.Intact)
    (hunopened : ∀ {revision}, layered.revisions.contains revision = false →
      ∀ node, (layered.node node).history.held? revision = none)
    (hbears : ∀ {ancestors},
      layered.revisions.lineage layered.current = layered.current :: ancestors → ∀ node,
        (layered.node node).history.Bears layered.current ancestors (layered.knowledge? node))
    (hunheld : ∀ {node}, ¬Holds program layered node →
      (layered.node node).history.held? layered.current = none) :
    (layered.upToDate program).Corrects layered where
  alike := (alike_upToDate program layered).symm
  intact := hintact
  relates {ancestors} hlineage node := by
    rw [knowledge?_upToDate, holding?]
    split
    case isTrue => exact hbears hlineage node
    case isFalse hfails => exact .unheld (hunheld hfails)
  unopened := hunopened

theorem Corrects.bears (hcorrects : store.Corrects layered) {ancestors : List Revision}
    (hlineage : layered.revisions.lineage layered.current = layered.current :: ancestors)
    (node : NodeId) :
    (layered.node node).history.Bears layered.current ancestors (layered.knowledge? node) := by
  rw [Store.knowledge?, knowledgeAt?, hlineage]
  exact (hcorrects.relates hlineage node).of_visible?

/-- What is known in a sound store that is right holds in the other one. -/
theorem Corrects.holds (hcorrects : store.Corrects layered) (hsound : Sound program store)
    (hknown : store.knowledge? node = some knowledge) : Holds program layered node := by
  obtain ⟨explanation, value, rfl⟩ := hsound.full hknown
  exact hsound.holds_grow hcorrects.grows (hsound.holds (value?_of_knowledge hknown))

/-- If some store is right, the one that has been brought up to date is. -/
theorem Corrects.upToDate (hcorrects : store.Corrects layered) (hsound : Sound program store) :
    (layered.upToDate program).Corrects layered := by
  obtain ⟨ancestors, hlineage⟩ := layered.exists_lineage_current
  refine upToDate_corrects hcorrects.intact hcorrects.unopened hcorrects.bears fun {node} hfails ↦ ?_
  have hbears := hcorrects.relates hlineage node
  cases hknown : store.knowledge? node with
  | some known => exact absurd (hcorrects.holds hsound hknown) hfails
  | none =>
    rw [hknown] at hbears
    exact hbears.held?_of_none

end Store

/-- A primitive that evaluation has given its first operand has one with a value. -/
theorem Holds.exists_first {store : Store} (hraw : store.RawInputs) {node first : NodeId}
    {op : BinaryOp} (hholds : Holds program store node)
    (hvalue : store.value? node = some (.primitive (.partially op first))) :
    ∃ left, store.value? first = some left := by
  induction hholds with
  | input _ haddress => cases hraw _ _ _ haddress hvalue
  | @evaluation _ env expr _ found allowed _ hknown hrule _ ih =>
    rw [Store.value?_of_knowledge hknown, Option.some.injEq] at hvalue
    subst hvalue
    generalize hvalue : Value.primitive (.partially op first) = value at hrule
    generalize program.expr expr = form at hrule
    cases hrule with
    | number | text | constructor _ _ _ | function _ => cases hvalue
    | var _ _ hallowed htarget | op _ _ hallowed htarget =>
      exact ih _ hallowed (hvalue ▸ htarget)
    | closure _ _ _ _ _ _ _ _ _ hbody | letIn _ _ _ hbody | letRec _ hbody
    | matching _ _ _ _ _ hbody | defs _ hbody => exact ih _ hbody.allowed (hvalue ▸ hbody.value)
    | primitive _ hoperand _ hcomputes =>
      cases hcomputes with
      | unary happly => cases hvalue ▸ UnaryOp.apply_flat happly
      | binary =>
        cases hvalue
        exact ⟨_, hoperand.value⟩
      | partially _ _ happly => cases hvalue ▸ BinaryOp.apply_flat happly

/-- What the evaluation that is right has to leave alone of what is outdated: it evaluates no such node
that somebody holds, or if it fails nobody holds such a node at all, and it finds no other value that
counts as the same. -/
structure Store.SparesOutdated (outdated : NodeId → Option Knowledge) (fails : Prop)
    (final : Store) : Prop where
  hidden : ∀ {node old}, outdated node = some old → final.Exposes node →
    final.value? node = none ∧ ¬fails
  distinct : ∀ {node old new merged}, outdated node = some old → final.knowledge? node = some new →
    merge old new = .ok merged → old = new

theorem Store.SparesOutdated.of_grows {outdated : NodeId → Option Knowledge} {fails : Prop}
    {store final : Store} (hgrows : store.Grows final)
    (hspares : final.SparesOutdated outdated fails) : store.SparesOutdated outdated fails where
  hidden hold hexposes := by
    obtain ⟨hvalue, hfails⟩ := hspares.hidden hold (hexposes.grow hgrows)
    refine ⟨?_, hfails⟩
    rw [Option.eq_none_iff_forall_ne_some] at hvalue ⊢
    exact fun value hsome ↦ hvalue value (hgrows.value hsome)
  distinct hold hnew := hspares.distinct hold (hgrows.knowledge hnew)

theorem Store.RawInputs.of_grows {store final : Store} (hgrows : store.Grows final)
    (hraw : final.RawInputs) : store.RawInputs := by
  intro node source value haddress hvalue
  rw [← hgrows.address_eq (Store.contains_of_value hvalue)] at haddress
  exact hraw node source value haddress (hgrows.value hvalue)

/-- Once something has been written about a node, it is known. -/
theorem Store.Rooted.known_of_write {store final : Store} (hrooted : store.Rooted) {address : Address}
    {knowledge : Knowledge} {node : NodeId} (hblank : knowledge.isBlank = false)
    (hwrite : write address knowledge store = .ok node final) (hgrows : store.Grows final) :
    final.knowledge? node ≠ none := by
  obtain ⟨-, rfl⟩ | ⟨known, hknown, -, -, rfl⟩ := hrooted.write_cases hblank hwrite hgrows.knowledge
  · have hrooted' := register_rooted hrooted address
    obtain rfl := (write_ok hwrite).1
    simp [knowledge?_enter hrooted' (hrooted'.contains_of_lookup (lookup?_register store address))]
  · simp [hknown]

/-- The run on a store in which these nodes are known although they are outdated. -/
def Companion.correcting (program : Program) (outdated : NodeId → Option Knowledge) (fails : Prop) :
    Companion program where
  other := program
  tie machine machine' := machine.store.Corrects machine'.store ∧
    (∀ {node old}, machine.store.knowledge? node = none → machine'.store.knowledge? node = some old →
      outdated node = some old) ∧
    machine'.memo = ⟨machine'.store.current, machine.memo.outcomes⟩
  agree store := store.RawInputs ∧ store.SparesOutdated outdated fails
  strict := fails
  patient := True
  other_eq := rfl
  agree_of_grows hgrows hagree := ⟨hagree.1.of_grows hgrows, hagree.2.of_grows hgrows⟩
  expr_of_value _ _ _ _ := rfl
  expr_of_closure _ _ _ := rfl
  exprs_of_strict _ := rfl
  alike htie := htie.1.alike
  value htie hvalue := htie.1.grows.value hvalue
  delayed {machine machine' final node} htie htidy hgrows hagree hexposes hvalue hends := by
    rw [Option.eq_none_iff_forall_ne_some]
    intro value hvisible
    obtain ⟨old, hold, -⟩ := Option.bind_eq_some_iff.1 hvisible
    have hunknown : machine.store.knowledge? node = none := by
      by_contra hknown
      obtain ⟨known, hknown⟩ := Option.ne_none_iff_exists'.1 hknown
      obtain ⟨_, _, rfl⟩ := htidy.full hknown
      cases hvalue.symm.trans (Store.value?_of_knowledge hknown)
    obtain ⟨hnone, hfails⟩ := hagree.2.hidden (htie.2.1 hunknown hold) (hexposes.grow hgrows)
    obtain hfails' | ⟨value, hsome⟩ := hends
    · exact hfails hfails'
    · cases hnone.symm.trans hsome
  partially {machine machine' holder op first} htie htidy hagree hholder hvalue := by
    obtain ⟨left, hleft⟩ := (htidy.holds hholder).exists_first hagree.1 hholder
    cases hvalue.symm.trans hleft
  allot {machine machine' address} htie hlookup := by
    refine ⟨htie.1.allot hlookup, ?_, htie.2.2⟩
    simp only [Store.knowledge?_allot]
    exact htie.2.1
  withEnvs htie _ := ⟨htie.1.withEnvs _, htie.2⟩
  write {machine machine' env expr explanation value node final} htie htidy hwrite hgrows _ hagree := by
    have hblank := Knowledge.isBlank_of explanation value
    obtain ⟨final', hwrite', hcorrects⟩ := htie.1.write htidy.toRooted hblank hwrite hgrows.knowledge
      fun hunknown hnew hold hmerge ↦ hagree.2.distinct (htie.2.1 hunknown hold) hnew hmerge
    have hrevisions := Store.write_revisions hwrite'
    have hcurrent : final'.current = machine'.store.current := congrArg Revisions.current hrevisions
    refine ⟨final', hwrite', hcorrects, fun {other old} hnone hold ↦ ?_, by rw [htie.2.2, hcurrent]⟩
    have hother : other ≠ node := by
      rintro rfl
      exact htidy.toRooted.known_of_write hblank hwrite hgrows hnone
    rw [Store.knowledge?, Store.write_knowledgeAt?_of_ne hwrite' hother, hcurrent] at hold
    refine htie.2.1 ?_ hold
    rw [Option.eq_none_iff_forall_ne_some] at hnone ⊢
    exact fun known hknown ↦ hnone known (hgrows.knowledge hknown)

theorem Companion.correcting_remembers {program : Program} {outdated : NodeId → Option Knowledge}
    {fails : Prop} (settings : Settings) (evaluate : Evaluator) :
    (correcting program outdated fails).Remembers settings settings evaluate :=
  remembers_of_memo settings evaluate (fun htie ↦ htie.2.2) fun htie _ ↦ ⟨htie.1, htie.2.1, rfl⟩

end Whence
