import Whence.Proofs.Persistence

/-!
# Refused writes

A write is refused only if it contradicts what the writing revision has itself written about the
node, be it in its entry or in its echo.  A node that has just been allotted has neither, so an
address that is mentioned for the first time is never refused, and a refusal comes before anything
has changed.
-/

namespace Whence

/-- A history refuses exactly what its revision has contradicted. -/
theorem History.commit_eq_error_iff {history : History} {lineage : List Revision}
    {revision : Revision} {knowledge : Knowledge} {conflict : Conflict} :
    history.commit lineage revision knowledge = .error conflict ↔
      knowledge.isBlank = false ∧ ∃ held, history.held? revision = some held ∧
        merge held knowledge = .error conflict := by
  cases hblank : knowledge.isBlank with
  | true => simp [commit, hblank]
  | false =>
    cases hentry : history.entries.lookup revision with
    | some own =>
      cases hmerge : merge own knowledge <;>
        simp [commit, held?, hblank, hentry, hmerge, Bind.bind, Except.bind, pure, Except.pure]
    | none =>
      cases hecho : history.echoes.lookup revision with
      | none =>
        simp [commit, held?, written, hblank, hentry, hecho, Bind.bind, Except.bind, pure,
          Except.pure]
      | some earlier =>
        cases hmerge : merge earlier knowledge <;>
          simp [commit, held?, written, hblank, hentry, hecho, hmerge, Bind.bind, Except.bind, pure,
            Except.pure]

namespace Store

variable {store final : Store} {address : Address} {knowledge : Knowledge} {error : Error}

/-- What a refused write has met: the node of its address, about which the current revision has
written something else.  The store is then still the one before. -/
theorem write_eq_error (hwrite : write address knowledge store = .error error final) :
    final = store ∧ ∃ node held conflict, error = .addressCollision address conflict ∧
      store.lookup? address = some node ∧
      (store.node node).history.held? store.current = some held ∧
      merge held knowledge = .error conflict := by
  rw [write_eq] at hwrite
  cases hrevised : (store.register address).2.revised (store.register address).1 knowledge with
  | ok history =>
    rw [hrevised] at hwrite
    cases hwrite
  | error conflict =>
    rw [hrevised] at hwrite
    cases hwrite
    obtain ⟨-, held, hheld, hmerge⟩ := History.commit_eq_error_iff.1 hrevised
    cases hlookup : store.lookup? address with
    | some node =>
      rw [register_of_lookup hlookup] at hheld ⊢
      exact ⟨rfl, node, held, conflict, rfl, rfl, hheld, hmerge⟩
    | none =>
      rw [register_of_none hlookup, node_allot, if_pos rfl] at hheld
      cases hheld

theorem update_eq_error {node : NodeId} {value : Value}
    (hupdate : update node value store = .error error final) :
    write (store.address node) (.of .given value) store = .error error final := by
  obtain hget | ⟨_, _, hget, hwrite⟩ := run_bind_eq_error hupdate
  · cases hget
  · cases hget
    obtain hwrite | ⟨_, _, -, hpure⟩ := run_bind_eq_error hwrite
    · exact hwrite
    · cases hpure

/-- A write or an update that is refused leaves the store exactly as it was, and its address had a
node already. -/
theorem refusal_unchanged (hreachable : store.Reachable) {conflict : Conflict}
    (hrefused : (∃ knowledge,
        write address knowledge store = .error (.addressCollision address conflict) final) ∨
      ∃ node value, update node value store = .error (.addressCollision address conflict) final) :
    final = store ∧ ∃ node, store.lookup? address = some node ∧ store.Contains node := by
  have hwrite : ∃ written knowledge,
      write written knowledge store = .error (.addressCollision address conflict) final := by
    obtain ⟨knowledge, hwrite⟩ | ⟨node, value, hupdate⟩ := hrefused
    · exact ⟨address, knowledge, hwrite⟩
    · exact ⟨store.address node, .of .given value, update_eq_error hupdate⟩
  obtain ⟨written, knowledge, hwrite⟩ := hwrite
  obtain ⟨hsame, node, _, _, herror, hlookup, -⟩ := write_eq_error hwrite
  cases herror
  exact ⟨hsame, node, hlookup, hreachable.intact.ids hlookup⟩

/-- The root cannot take back what it has taken in. -/
theorem refusal_unchanged_oneInput : ∃ store final conflict, store.Reachable ∧
    update ⟨0⟩ (.text "new") store = .error (.addressCollision (.input ⟨0⟩) conflict) final ∧
    final = store ∧ ∃ node, store.lookup? (.input ⟨0⟩) = some node ∧ store.Contains node := by
  let old : Knowledge := .of .given (.text "old")
  let store := oneInput {} ⟨[(.root, old)], []⟩
  have hreachable : store.Reachable := ⟨[.input (.text "old")], run_input_empty (.text "old")⟩
  have hlookup : store.lookup? (.input ⟨0⟩) = some ⟨0⟩ := by simp [store, lookup?, oneInput]
  have hwrite : write (.input ⟨0⟩) (.of .given (.text "new")) store =
      .error (.addressCollision (.input ⟨0⟩) (.leaf (.text "old") (.text "new"))) store := by
    rw [write_eq, register_of_lookup hlookup]
    rfl
  have hupdate : update ⟨0⟩ (.text "new") store =
      .error (.addressCollision (.input ⟨0⟩) (.leaf (.text "old") (.text "new"))) store := by
    rw [update_eq, show store.address ⟨0⟩ = .input ⟨0⟩ from rfl, hwrite]
  exact ⟨store, store, _, hreachable, hupdate,
    refusal_unchanged hreachable (.inr ⟨⟨0⟩, .text "new", hupdate⟩)⟩

end Store

end Whence
