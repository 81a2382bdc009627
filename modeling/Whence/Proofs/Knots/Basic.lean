import Whence.Proofs.Finding.Coherence
import Whence.Proofs.Persistence

/-!
# What steps do not take away

Evaluation changes a store in steps.  Steps take no address and no environment away, and as long as
only the first revision is in use, what is known about a node can only become more.  The closure of a
member of a recursive group cannot become more, so nothing that happens later changes it.
-/

namespace Whence

open Relation

variable {program : Program} {store final : Store} {node : NodeId} {address : Address}
  {knowledge : Knowledge}

namespace Environments

variable {envs later : Environments} {env closed : EnvId} {extension : Extension}

/-- Extending keeps what the table of extensions lists. -/
theorem ids_extend (hid : envs.ids[extension]? = some env) (parent : EnvId) (name : Symbol)
    (binding : Binding) : (envs.extend parent name binding).2.ids[extension]? = some env := by
  cases hnew : envs.ids[(⟨parent, name, binding⟩ : Extension)]? with
  | some _ =>
    rw [extend_of_some hnew]
    exact hid
  | none =>
    have hother : (⟨parent, name, binding⟩ : Extension) ≠ extension := by
      rintro rfl
      rw [hid] at hnew
      cases hnew
    rw [extend_of_none hnew, push, Std.HashMap.getElem?_insert, if_neg (by simpa using hother)]
    exact hid

theorem size_le_extendAll (envs : Environments) (env : EnvId) (bindings : List (Symbol × Binding)) :
    envs.size ≤ (envs.extendAll env bindings).2.size := by
  induction bindings generalizing envs env with
  | nil => exact Nat.le_refl _
  | cons first rest ih =>
    exact Nat.le_trans (extend_grows envs env first.1 first.2).size_le (ih _ _)

/-- A chain that has been found once is found in every collection that lists what the first one
lists. -/
theorem extendAll_found {bindings : List (Symbol × Binding)}
    (hlater : ∀ {extension : Extension} {env},
      envs.ids[extension]? = some env → later.ids[extension]? = some env)
    (hfound : envs.extendAll env bindings = (closed, envs)) :
    later.extendAll env bindings = (closed, later) := by
  induction bindings generalizing env with
  | nil =>
    cases hfound
    rfl
  | cons first rest ih =>
    obtain ⟨name, binding⟩ := first
    cases hid : envs.ids[(⟨env, name, binding⟩ : Extension)]? with
    | some inner =>
      simp only [extendAll, extend_of_some hid] at hfound
      simp only [extendAll, extend_of_some (hlater hid)]
      exact ih hfound
    | none =>
      -- The first binding would make a new environment, but there are no more than before.
      have hmade : (envs.extend env name binding).2.size = envs.size + 1 := by
        simp [extend_of_none hid, size, push]
      have hsize := size_le_extendAll (envs.extend env name binding).2
        (envs.extend env name binding).1 rest
      have hsame : ((envs.extend env name binding).2.extendAll (envs.extend env name binding).1
          rest).2 = envs := congrArg Prod.snd hfound
      rw [hsame, hmade] at hsize
      exact absurd hsize (Nat.not_succ_le_self _)

end Environments

/-- An explanation stays as it is when more becomes known. -/
theorem Knowledge.explanation_of_below {explanation : Explanation} {later : Knowledge}
    (hbelow : below knowledge later) (hexplanation : knowledge.explanation = some explanation) :
    later.explanation = some explanation := by
  have hlater : below knowledge.explanation later.explanation := hbelow.1
  rw [hexplanation] at hlater
  obtain ⟨_, hlater, rfl⟩ := Merge.below_some_iff.1 hlater
  exact hlater

/-- Nothing can be added to the closure of a member of a group. -/
theorem Knowledge.eq_of_member_below {env : EnvId} {function : ExprId} {scope : Scope}
    {later : Knowledge}
    (hbelow : below (Knowledge.of .given (.closure ⟨env, function, some scope⟩)) later) :
    later = .of .given (.closure ⟨env, function, some scope⟩) := by
  have hexplanation := Knowledge.explanation_of_below hbelow rfl
  have hvalue : below (some (Value.closure ⟨env, function, some scope⟩)) later.value := hbelow.2
  obtain ⟨value, hvalue, hclosure⟩ := Merge.below_some_iff.1 hvalue
  cases hclosure with
  | @closure _ made hmade =>
    obtain ⟨env', function', scope'⟩ := made
    obtain ⟨henv, hfunction, hbelow⟩ := hmade
    obtain ⟨_, hscope, rfl⟩ := Merge.below_some_iff.1 hbelow
    dsimp only at henv hfunction hscope
    subst henv hfunction hscope
    calc later
      _ = ⟨later.explanation, later.value⟩ := rfl
      _ = .of .given (.closure ⟨env, function, some scope⟩) := by
        rw [hexplanation, hvalue]
        rfl

namespace Store

/-- The second store has all that the first one has, but may know more. -/
structure Includes (final store : Store) : Prop where
  lookup : ∀ {address node}, store.lookup? address = some node → final.lookup? address = some node
  envs : store.envs.Grows final.envs
  ids : ∀ {extension : Extension} {env}, store.envs.ids[extension]? = some env →
    final.envs.ids[extension]? = some env

theorem Includes.refl (store : Store) : store.Includes store := ⟨id, .refl _, id⟩

theorem Includes.trans {middle : Store} (hsecond : final.Includes middle)
    (hfirst : middle.Includes store) : final.Includes store where
  lookup hlookup := hsecond.lookup (hfirst.lookup hlookup)
  envs := hfirst.envs.trans hsecond.envs
  ids hid := hsecond.ids (hfirst.ids hid)

theorem envs_register (store : Store) (address : Address) :
    (store.register address).2.envs = store.envs := by
  unfold Store.register
  split <;> rfl

theorem Step.includes (hstep : Step store final) : final.Includes store := by
  cases hstep with
  | register address =>
    have hgrows := register_grows store address
    exact ⟨hgrows.lookup, hgrows.envs, fun hid ↦ envs_register store address ▸ hid⟩
  | commit _ => exact ⟨id, .refl _, id⟩
  | extend env name binding =>
    exact ⟨id, Environments.extend_grows store.envs env name binding,
      fun hid ↦ Environments.ids_extend hid env name binding⟩
  | note primitive node => exact ⟨id, .refl _, id⟩

theorem Steps.includes (hsteps : Steps store final) : final.Includes store := by
  induction hsteps with
  | refl => exact .refl store
  | tail _ hstep ih => exact hstep.includes.trans ih

theorem envs_write (store : Store) (address : Address) (knowledge : Knowledge) :
    (stateAfter (Store.write address knowledge) store).envs = store.envs := by
  rw [stateAfter, write_eq]
  cases (store.register address).2.revised (store.register address).1 knowledge <;>
    exact envs_register store address

theorem envs_input (store : Store) (value : Value) :
    (stateAfter (Store.input value) store).envs = store.envs := by
  have hwrite := envs_write store.fresh.2 (store.fresh.2.address store.fresh.1) (.of .given value)
  rw [stateAfter, input_eq]
  exact hwrite.trans (envs_register store _)

theorem envs_update (store : Store) (node : NodeId) (value : Value) :
    (stateAfter (Store.update node value) store).envs = store.envs := by
  have hwrite := envs_write store (store.address node) (.of .given value)
  rw [stateAfter] at hwrite ⊢
  rw [update_eq]
  cases hrun : Store.write (store.address node) (.of .given value) store <;>
  · simp only [hrun] at hwrite ⊢
    exact hwrite

theorem envs_primitive (store : Store) (primitive : Primitive) :
    (stateAfter (Store.primitive primitive) store).envs = store.envs := by
  cases hlookup : store.library.lookup primitive with
  | some node => rw [stateAfter, primitive_of_some hlookup]
  | none =>
    have hinput := envs_input store (.primitive primitive.value)
    rw [stateAfter] at hinput ⊢
    rw [primitive_of_none hlookup]
    cases hrun : Store.input (.primitive primitive.value) store <;>
    · simp only [hrun] at hinput ⊢
      exact hinput

/-- In the first revision what is known about a node only becomes more. -/
theorem Steps.below_knowledge (hsteps : Steps store final) (hrevisions : store.revisions = {})
    (hknown : store.knowledge? node = some knowledge) :
    ∃ later, final.knowledge? node = some later ∧ below knowledge later := by
  have hrevisions' : final.revisions = {} := hsteps.revisions_eq.trans hrevisions
  have hlater := (Move.steps hsteps).outlives.history node
  rw [knowledge?_of_revisions hrevisions] at hknown
  rw [knowledge?_of_revisions hrevisions']
  exact hlater.entries hknown

/-- Only the first revision is in use, and all that the histories hold is what is known now. -/
structure Current (store : Store) : Prop where
  revisions : store.revisions = {}
  intact : store.Intact
  history : ∀ node, (store.node node).history = .ofKnowledge (store.knowledge? node)

theorem Coherent.intact (hcoherent : store.Coherent) : store.Intact where
  ids hlookup := (hcoherent.ids.1 hlookup).1

theorem Coherent.toCurrent (hcoherent : store.Coherent) : store.Current :=
  ⟨hcoherent.revisions, hcoherent.intact, hcoherent.history⟩

theorem Step.current (hstep : Step store final) (hcurrent : store.Current) : final.Current := by
  obtain ⟨hrevisions, hintact, hhistory⟩ := hcurrent
  have hrevisions' : final.revisions = {} := hstep.revisions_eq.trans hrevisions
  have hofKnowledge : ∀ {node known}, (final.node node).history = .ofKnowledge known →
      (final.node node).history = .ofKnowledge (final.knowledge? node) := by
    intro node known hknown
    have hknown' : final.knowledge? node = known := by
      rw [knowledge?_of_revisions hrevisions', hknown]
      cases known <;> rfl
    rw [hknown, hknown']
  refine ⟨hrevisions', hstep.intact hintact, fun node ↦ ?_⟩
  cases hstep with
  | register address => exact hofKnowledge ((history_register store address node).trans (hhistory node))
  | @commit written knowledge history hrevised =>
    obtain hsame | ⟨rfl, hwritten⟩ := history_setHistory store written node history
    · exact hofKnowledge (hsame.trans (hhistory node))
    · rw [revised, hhistory, Store.current, hrevisions] at hrevised
      obtain ⟨later, rfl, -⟩ := History.commit_ofKnowledge hrevised
      exact hofKnowledge hwritten
  | extend env name binding => exact hofKnowledge (hhistory node)
  | note primitive id => exact hofKnowledge (hhistory node)

theorem Steps.current (hsteps : Steps store final) (hcurrent : store.Current) : final.Current := by
  induction hsteps with
  | refl => exact hcurrent
  | tail _ hstep ih => exact hstep.current ih

/-- A write to a node that nothing is known about enters what is written. -/
theorem Current.write_unknown (hcurrent : store.Current) (hblank : knowledge.isBlank = false)
    (hunknown : ∀ node, store.lookup? address = some node → store.knowledge? node = none) :
    ∃ node final, Store.write address knowledge store = .ok node final ∧
      final.envs = store.envs ∧ final.lookup? address = some node ∧
      final.knowledge? node = some knowledge ∧
      ∀ {other node}, other ≠ address → final.lookup? other = some node →
        store.lookup? other = some node := by
  have hregister : (store.register address).2.Current :=
    (Step.register store address).current hcurrent
  have hlookup := lookup?_register store address
  have hnode := hcurrent.intact.contains_register address
  have hnone : (store.register address).2.knowledge? (store.register address).1 = none := by
    rw [knowledge?_register]
    cases hknown : store.lookup? address with
    | some node =>
      rw [register_of_lookup hknown]
      exact hunknown node hknown
    | none =>
      rw [register_of_none hknown]
      cases hnew : store.knowledge? ⟨store.size⟩ with
      | none => rfl
      | some _ => exact absurd (contains_of_knowledge hnew) (Nat.lt_irrefl store.size)
  have hwrite := write_of_no_history hcurrent.revisions address hblank (by
    rw [hregister.history, hnone])
  refine ⟨_, _, hwrite, envs_register store address, hlookup, ?_, fun {other node} hother hfound ↦ ?_⟩
  · rw [Store.enter, knowledge?_setHistory hregister.revisions hnode, if_pos rfl]
  · have hfound : (store.register address).2.lookup? other = some node := hfound
    cases hknown : store.lookup? address with
    | some _ =>
      rw [register_of_lookup hknown] at hfound
      exact hfound
    | none =>
      rw [register_of_none hknown, lookup?_allot, if_neg hother.symm] at hfound
      exact hfound

end Store

variable {scope : Scope} {closed : EnvId} {function : ExprId} {entries : List GroupEntry}
  {members : List Member}

theorem Closes.steps (hcloses : Closes program store scope closed) (hsteps : store.Steps final) :
    Closes program final scope closed := by
  have hgrows := hsteps.includes.envs
  refine ⟨hgrows.contains hcloses.outer, hgrows.contains hcloses.contains, ?_⟩
  rw [hgrows.entries_eq hcloses.contains, hgrows.entries_eq hcloses.outer]
  exact hcloses.entries

section Current

variable (hcurrent : store.Current) (hsteps : store.Steps final)
include hcurrent hsteps

theorem HoldsClosure.steps (hholds : HoldsClosure store scope closed function node) :
    HoldsClosure final scope closed function node := by
  obtain ⟨later, hlater, hbelow⟩ := hsteps.below_knowledge hcurrent.revisions hholds.knowledge
  rw [Knowledge.eq_of_member_below hbelow] at hlater
  exact ⟨hsteps.includes.lookup hholds.lookup, hlater⟩

theorem HoldsClosures.steps (hholds : HoldsClosures store scope closed entries members) :
    HoldsClosures final scope closed entries members := by
  induction hholds with
  | nil => exact .nil
  | cons hfirst _ ih => exact .cons (hfirst.steps hcurrent hsteps) ih

theorem Members.steps (hmembers : Members program store scope closed members) :
    Members program final scope closed members :=
  ⟨hmembers.1.steps hsteps, HoldsClosures.steps hcurrent hsteps hmembers.2⟩

theorem Resolves.steps {binding : Binding} (hresolves : Resolves program store binding node) :
    Resolves program final binding node := by
  cases hresolves with
  | node => exact .node
  | recursive hentry hcloses hholds =>
    exact .recursive hentry (hcloses.steps hsteps) (hholds.steps hcurrent hsteps)

end Current

end Whence
