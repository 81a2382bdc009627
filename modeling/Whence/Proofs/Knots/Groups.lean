import Whence.Proofs.Groups
import Whence.Proofs.Knots.Basic

/-!
# Closing recursive groups in the first revision

A store is knotted if for each recursive binding in it the group of the binding has been closed and
all its closures are there.  Closing a group in a knotted store succeeds: either its environment is
new, and nothing has been registered in it, or the group has been closed before, and all is found.
Once a group has been closed, closing it again changes nothing, whatever has happened to the store in
the meantime.
-/

namespace Whence

open Relation

variable {program : Program} {store final : Store} {machine : Machine} {node : NodeId}
  {scope : Scope} {closed env : EnvId} {members : List Member} {entry : GroupEntry}
  {entries : List GroupEntry}

theorem Rules.closeGroup_eq (program : Program) (scope : Scope) (machine : Machine) :
    Rules.closeGroup program scope machine =
      .ok (machine.store.envs.extendAll scope.env (program.recursiveBindings scope)).1
        { machine with store := { machine.store with
          envs := (machine.store.envs.extendAll scope.env (program.recursiveBindings scope)).2 } } :=
  rfl

/-- Making the environment of the group makes no environment that is not there. -/
def Found (program : Program) (store : Store) (scope : Scope) (closed : EnvId) : Prop :=
  store.envs.extendAll scope.env (program.recursiveBindings scope) = (closed, store.envs)

theorem Found.closeGroup_eq (hfound : Found program machine.store scope closed) :
    Rules.closeGroup program scope machine = .ok closed machine := by
  rw [Rules.closeGroup_eq, hfound]

/-- Where the closure of an entry is there, closing the entry finds it. -/
theorem HoldsClosure.closeEntry_eq
    (hholds : HoldsClosure machine.store scope closed entry.function node)
    (hcurrent : machine.store.Current) (hfound : Found program machine.store scope closed) :
    Rules.closeEntry program scope entry machine = .ok node machine := by
  have hhistory := hcurrent.history node
  rw [hholds.knowledge] at hhistory
  have hwrite := Store.write_of_history hcurrent.revisions hholds.lookup hholds.knowledge hhistory
    (Knowledge.isBlank_of .given (.closure ⟨closed, entry.function, some scope⟩)) (merge_self _)
  rw [Rules.closeEntry, run_bind, hfound.closeGroup_eq]
  exact Machine.perform_ok hwrite

/-- The group has been closed: its environment is found and its closures are there. -/
structure Closed (program : Program) (store : Store) (scope : Scope) (closed : EnvId)
    (members : List Member) : Prop where
  current : store.Current
  members : Members program store scope closed members
  found : Found program store scope closed

namespace Closed

theorem of_members (hcoherent : store.Coherent)
    (hmembers : Members program store scope closed members) :
    Closed program store scope closed members :=
  ⟨hcoherent.toCurrent, hmembers, hmembers.1.extendAll_eq hcoherent.envs⟩

/-- A group that has been closed stays closed. -/
theorem steps (hclosed : Closed program store scope closed members)
    (hsteps : store.Steps final) : Closed program final scope closed members where
  current := hsteps.current hclosed.current
  members := hclosed.members.steps hclosed.current hsteps
  found := Environments.extendAll_found hsteps.includes.ids hclosed.found

variable (hclosed : Closed program machine.store scope closed members)
include hclosed

theorem closeEntries_eq {closures : List Member}
    (hholds : HoldsClosures machine.store scope closed entries closures) :
    (entries.mapM fun entry ↦ do
      let closure ← Rules.closeEntry program scope entry
      pure (⟨entry.name, closure⟩ : Member)) machine = .ok closures machine := by
  induction hholds with
  | nil => rfl
  | cons hfirst _ ih =>
    rw [List.mapM_cons, bind_assoc, run_bind, hfirst.closeEntry_eq hclosed.current hclosed.found]
    dsimp only
    rw [pure_bind, run_bind, ih]
    rfl

/-- Closing the group once more finds its closures. -/
theorem closeMembers_eq : Rules.closeMembers program scope machine = .ok members machine :=
  hclosed.closeEntries_eq hclosed.members.2

/-- A binding of the group leads to the closure of its entry. -/
theorem resolve_eq (name : Symbol) {position : Nat}
    (hentry : (program.group scope.group).entries[position]? = some entry)
    (hholds : HoldsClosure machine.store scope closed entry.function node) :
    Rules.resolve program name (.recursive scope position) machine = .ok node machine := by
  simp only [Rules.resolve, hentry]
  exact hholds.closeEntry_eq hclosed.current hclosed.found

end Closed

namespace Store

/-- For each recursive binding the group has been closed. -/
structure Knotted (program : Program) (store : Store) : Prop where
  coherent : store.Coherent
  knots : ∀ {env name scope position},
    (name, Binding.recursive scope position) ∈ store.envs.entries env →
      ∃ closed members, Members program store scope closed members

namespace Knotted

theorem empty (program : Program) : Knotted program {} where
  coherent := .empty
  knots {env _ _ _} hentry := by
    rw [Environments.entries_default] at hentry
    cases hentry

/-- A store stays knotted if the groups of the bindings that it gets have been closed. -/
theorem of_extendAll (hknotted : store.Knotted program) (henv : store.envs.Contains env)
    (bindings : List (Symbol × Binding)) (hcoherent : final.Coherent) (hsteps : store.Steps final)
    (henvs : final.envs = (store.envs.extendAll env bindings).2)
    (hbindings : ∀ {name scope position}, (name, Binding.recursive scope position) ∈ bindings →
      ∃ closed members, Members program final scope closed members) : final.Knotted program where
  coherent := hcoherent
  knots {inner name scope position} hentry := by
    have hold : ∀ {env}, (name, Binding.recursive scope position) ∈ store.envs.entries env →
        ∃ closed members, Members program final scope closed members := by
      intro env hentry
      obtain ⟨closed, members, hmembers⟩ := hknotted.knots hentry
      exact ⟨closed, members, hmembers.steps hknotted.coherent.toCurrent hsteps⟩
    have hinner := Environments.contains_of_mem hentry
    by_cases hcontains : store.envs.Contains inner
    · rw [hsteps.includes.envs.entries_eq hcontains] at hentry
      exact hold hentry
    · rw [henvs] at hentry hinner
      obtain hnew | hentry := Environments.mem_of_extendAll bindings hknotted.coherent.envs henv
        hinner hcontains hentry
      · exact hbindings hnew
      · exact hold hentry

/-- A store stays knotted as long as its environments stay as they are. -/
theorem of_envs (hknotted : store.Knotted program) (hcoherent : final.Coherent)
    (hsteps : store.Steps final) (henvs : final.envs = store.envs) : final.Knotted program :=
  hknotted.of_extendAll hknotted.coherent.envs.contains_empty [] hcoherent hsteps henvs nofun

/-- A group whose environment exists has been closed. -/
theorem closed_of_closes (hknotted : store.Knotted program)
    (hcloses : Closes program store scope closed) :
    ∃ members, Closed program store scope closed members := by
  cases hentries : (program.group scope.group).entries with
  | nil =>
    refine ⟨[], .of_members hknotted.coherent ⟨hcloses, ?_⟩⟩
    rw [hentries]
    exact .nil
  | cons entry rest =>
    have hmem : (entry.name, Binding.recursive scope 0) ∈ store.envs.entries closed := by
      rw [hcloses.entries, Program.recursiveBindings, hentries]
      simp [List.zipIdx_cons]
    obtain ⟨closed', members, hmembers⟩ := hknotted.knots hmem
    cases hmembers.1.unique hknotted.coherent.envs hcloses
    exact ⟨members, .of_members hknotted.coherent hmembers⟩

end Knotted

/-- Whatever is registered in the environment holds the closure of a member. -/
def Reserves (store : Store) (scope : Scope) (closed : EnvId) : Prop :=
  ∀ {function node}, store.lookup? (.evaluation closed function) = some node →
    HoldsClosure store scope closed function node

end Store

/-! ## Closing -/

/-- What closing a part of a group in its reserved environment leaves behind. -/
structure ClosesIn (store final : Store) (scope : Scope) (closed : EnvId) : Prop where
  coherent : final.Coherent
  steps : store.Steps final
  envs : final.envs = store.envs
  reserves : final.Reserves scope closed

namespace ClosesIn

theorem refl (hcoherent : store.Coherent) (hreserves : store.Reserves scope closed) :
    ClosesIn store store scope closed :=
  ⟨hcoherent, .refl, rfl, hreserves⟩

theorem trans {middle : Store} (hfirst : ClosesIn store middle scope closed)
    (hsecond : ClosesIn middle final scope closed) : ClosesIn store final scope closed :=
  ⟨hsecond.coherent, hfirst.steps.trans hsecond.steps, hsecond.envs.trans hfirst.envs,
    hsecond.reserves⟩

end ClosesIn

/-- Where only closures of members are registered, closing an entry gives its closure. -/
theorem Closes.closeEntry (hcloses : Closes program machine.store scope closed)
    (hcoherent : machine.store.Coherent) (hreserves : machine.store.Reserves scope closed)
    (entry : GroupEntry) :
    ∃ node store, Rules.closeEntry program scope entry machine = .ok node { machine with store } ∧
      ClosesIn machine.store store scope closed ∧
      HoldsClosure store scope closed entry.function node := by
  have hfound : Found program machine.store scope closed := hcloses.extendAll_eq hcoherent.envs
  cases hlookup : machine.store.lookup? (.evaluation closed entry.function) with
  | some node =>
    have hholds := hreserves hlookup
    exact ⟨node, machine.store, hholds.closeEntry_eq hcoherent.toCurrent hfound,
      .refl hcoherent hreserves, hholds⟩
  | none =>
    let closure : Closure := ⟨closed, entry.function, some scope⟩
    have haddress : (Address.evaluation closed entry.function).Framed machine.store.envs :=
      hcloses.contains
    have hframed : (Knowledge.of .given (.closure closure)).Framed machine.store.envs := by
      rintro _ ⟨⟩
      refine ⟨hcloses.contains, ?_⟩
      rintro _ ⟨⟩
      exact hcloses.outer
    have hunknown : ∀ node, machine.store.lookup? (.evaluation closed entry.function) = some node →
        machine.store.knowledge? node = none := by
      intro node hnode
      rw [hlookup] at hnode
      cases hnode
    obtain ⟨node, store, hwrite, henvs, hlookup', hknown, hothers⟩ :=
      hcoherent.toCurrent.write_unknown (Knowledge.isBlank_of .given (.closure closure)) hunknown
    have hcoherent' : store.Coherent :=
      (Stops.ok (Store.Ensures.write hcoherent haddress hframed) hwrite).1.coherent
    have hsteps : machine.store.Steps store := by
      have hsteps := Store.Steps.write (.evaluation closed entry.function)
        (.of .given (.closure closure)) machine.store
      rwa [stateAfter, hwrite] at hsteps
    have hholds : HoldsClosure store scope closed entry.function node := ⟨hlookup', hknown⟩
    refine ⟨node, store, ?_, ⟨hcoherent', hsteps, henvs, fun {function other} hother ↦ ?_⟩, hholds⟩
    · rw [Rules.closeEntry, run_bind, hfound.closeGroup_eq]
      exact Machine.perform_ok hwrite
    · by_cases hsame : function = entry.function
      · subst hsame
        cases hlookup'.symm.trans hother
        exact hholds
      · have hold := hothers (by simpa using hsame) hother
        exact (hreserves hold).steps hcoherent.toCurrent hsteps

theorem Closes.closeEntries (machine : Machine) (hcloses : Closes program machine.store scope closed)
    (hcoherent : machine.store.Coherent) (hreserves : machine.store.Reserves scope closed)
    (entries : List GroupEntry) :
    ∃ members store, (entries.mapM fun entry ↦ do
        let closure ← Rules.closeEntry program scope entry
        pure (⟨entry.name, closure⟩ : Member)) machine = .ok members { machine with store } ∧
      ClosesIn machine.store store scope closed ∧
      HoldsClosures store scope closed entries members := by
  induction entries generalizing machine with
  | nil => exact ⟨[], machine.store, rfl, .refl hcoherent hreserves, .nil⟩
  | cons entry entries ih =>
    obtain ⟨node, store, hentry, hcloses', hholds⟩ := hcloses.closeEntry hcoherent hreserves entry
    obtain ⟨members, store', hrest, hcloses'', hholds'⟩ := ih { machine with store }
      (hcloses.steps hcloses'.steps) hcloses'.coherent hcloses'.reserves
    refine ⟨⟨entry.name, node⟩ :: members, store', ?_, hcloses'.trans hcloses'',
      .cons (hholds.steps hcloses'.coherent.toCurrent hcloses''.steps) hholds'⟩
    rw [List.mapM_cons, bind_assoc, run_bind, hentry]
    dsimp only
    rw [pure_bind, run_bind, hrest]
    rfl

/-- Closing a group begins by making its environment, and may as well begin after that. -/
theorem Found.closeMembers_eq {store : Store} (hfound : Found program store scope closed)
    (hmade : Rules.closeGroup program scope machine = .ok closed { machine with store })
    (hentries : (program.group scope.group).entries ≠ []) :
    Rules.closeMembers program scope machine =
      Rules.closeMembers program scope { machine with store } := by
  have hfound : Rules.closeGroup program scope { machine with store } =
      .ok closed { machine with store } := Found.closeGroup_eq hfound
  obtain ⟨entry, rest, hentries⟩ := List.exists_cons_of_ne_nil hentries
  have hentry : Rules.closeEntry program scope entry machine =
      Rules.closeEntry program scope entry { machine with store } := by
    rw [Rules.closeEntry, run_bind, run_bind, hmade, hfound]
  rw [Rules.closeMembers, hentries, List.mapM_cons, bind_assoc, run_bind, run_bind, hentry]

/-- What closing a group comes to: its closures are there, the store stays knotted, and nothing
happens if the environment of the group was there before. -/
structure Closing (program : Program) (store : Store) (scope : Scope) (closed : EnvId)
    (members : List Member) (final : Store) : Prop where
  knotted : final.Knotted program
  steps : store.Steps final
  members : Members program final scope closed members
  env : (store.envs.extendAll scope.env (program.recursiveBindings scope)).1 = closed
  again : ∀ {env}, Closes program store scope env → final = store

/-- Where the environment of the group exists, the group has been closed. -/
theorem Store.Knotted.closeMembers_again (hknotted : machine.store.Knotted program)
    (hcloses : Closes program machine.store scope closed) :
    ∃ members, Rules.closeMembers program scope machine = .ok members machine ∧
      Closing program machine.store scope closed members machine.store := by
  obtain ⟨members, hclosed⟩ := hknotted.closed_of_closes hcloses
  exact ⟨members, hclosed.closeMembers_eq, hknotted, .refl, hclosed.members,
    congrArg Prod.fst hclosed.found, fun _ ↦ rfl⟩

/-- Where the environment of the group is new, nothing is registered in it yet. -/
theorem Store.Coherent.closeGroup_new (hcoherent : machine.store.Coherent)
    (hscope : machine.store.envs.Contains scope.env)
    (hnew : ∀ closed, ¬Closes program machine.store scope closed) :
    ∃ closed store, Rules.closeGroup program scope machine = .ok closed { machine with store } ∧
      store.Coherent ∧ machine.store.Steps store ∧
      store.envs = (machine.store.envs.extendAll scope.env (program.recursiveBindings scope)).2 ∧
      Closes program store scope closed ∧ store.Reserves scope closed := by
  obtain ⟨hgrows, -, hcontains, hentries⟩ :=
    Environments.extendAll_spec (program.recursiveBindings scope) hcoherent.envs hscope
  have hbindings : ∀ entry ∈ program.recursiveBindings scope,
      entry.2.Framed machine.store.envs := by
    intro entry hentry
    obtain ⟨_, -, rfl⟩ := List.mem_map.1 hentry
    exact hscope
  refine ⟨_, _, Rules.closeGroup_eq program scope machine,
    (hcoherent.extendAll hscope hbindings).coherent, .extendAll machine.store scope.env _, rfl,
    ⟨hgrows.contains hscope, hcontains, ?_⟩, ?_⟩
  · rw [hgrows.entries_eq hscope]
    exact hentries
  · intro function node hlookup
    obtain ⟨hnode, haddress⟩ := hcoherent.ids.1 hlookup
    have hframed := hcoherent.addresses hnode
    rw [haddress] at hframed
    refine absurd ⟨hscope, hframed, ?_⟩ (hnew _)
    rw [← hgrows.entries_eq hframed, hentries]

theorem Store.Knotted.closeMembers_new (hknotted : machine.store.Knotted program)
    (hscope : machine.store.envs.Contains scope.env)
    (hnew : ∀ closed, ¬Closes program machine.store scope closed) :
    ∃ closed members store,
      Rules.closeMembers program scope machine = .ok members { machine with store } ∧
      Closing program machine.store scope closed members store := by
  obtain ⟨closed, middle, hgroup, hcoherent, hsteps, henvs, hcloses, hreserves⟩ :=
    hknotted.coherent.closeGroup_new hscope hnew
  obtain ⟨members, store, hclose, hclosesIn, hholds⟩ :=
    Closes.closeEntries { machine with store := middle } hcloses hcoherent hreserves
      (program.group scope.group).entries
  have hall : machine.store.Steps store := hsteps.trans hclosesIn.steps
  have hmembers : Members program store scope closed members :=
    ⟨hcloses.steps hclosesIn.steps, hholds⟩
  have hnonempty : (program.group scope.group).entries ≠ [] := by
    intro hempty
    refine hnew scope.env ⟨hscope, hscope, ?_⟩
    simp [Program.recursiveBindings, hempty]
  have hfound : Found program middle scope closed := hcloses.extendAll_eq hcoherent.envs
  have henv : (machine.store.envs.extendAll scope.env (program.recursiveBindings scope)).1 =
      closed := by
    rw [Rules.closeGroup_eq] at hgroup
    injection hgroup
  refine ⟨closed, members, store, (hfound.closeMembers_eq hgroup hnonempty).trans hclose, ?_, hall,
    hmembers, henv, fun hcloses ↦ absurd hcloses (hnew _)⟩
  refine hknotted.of_extendAll hscope (program.recursiveBindings scope) hclosesIn.coherent hall
    (hclosesIn.envs.trans henvs) fun hmem ↦ ?_
  obtain ⟨⟨entry, position⟩, -, heq⟩ := List.mem_map.1 hmem
  cases heq
  exact ⟨closed, members, hmembers⟩

/-- In a knotted store every group can be closed. -/
theorem Store.Knotted.closeMembers (hknotted : machine.store.Knotted program)
    (hscope : machine.store.envs.Contains scope.env) :
    ∃ closed members store,
      Rules.closeMembers program scope machine = .ok members { machine with store } ∧
      Closing program machine.store scope closed members store := by
  by_cases hcloses : ∃ closed, Closes program machine.store scope closed
  · obtain ⟨closed, hcloses⟩ := hcloses
    obtain ⟨members, hclose, hclosing⟩ := hknotted.closeMembers_again hcloses
    exact ⟨closed, members, machine.store, hclose, hclosing⟩
  · exact hknotted.closeMembers_new hscope fun closed hold ↦ hcloses ⟨closed, hold⟩

end Whence
