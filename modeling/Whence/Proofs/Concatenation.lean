import Mathlib.Logic.Relation
import Whence.Proofs.Environments

/-!
# Environments laid over each other

Whatever has been extended and laid over what since the first environment was there, the way along
the parents of an environment ends in the empty one.  Since equal chains are the same environment,
the laws of lists hold of the environments themselves: laying one over another is associative, and
the empty environment changes nothing on either side.
-/

namespace Whence.Environments

open Relation

variable {envs later : Environments} {env inner outer joined : EnvId}

/-- The ways to be handed out an environment. -/
inductive Making where
  | extend (parent : EnvId) (name : Symbol) (binding : Binding)
  | singleton (name : Symbol) (binding : Binding)
  | concat (inner outer : EnvId)

namespace Making

/-- The environment that is handed out, and all environments after that. -/
def run (envs : Environments) : Making → EnvId × Environments
  | .extend parent name binding => envs.extend parent name binding
  | .singleton name binding => envs.singleton name binding
  | .concat inner outer => envs.concat inner outer

/-- The environments that are built upon have been handed out. -/
def Fits (envs : Environments) : Making → Prop
  | .extend parent _ _ => envs.Contains parent
  | .singleton _ _ => True
  | .concat inner outer => envs.Contains inner ∧ envs.Contains outer

end Making

def Step (envs later : Environments) : Prop :=
  ∃ making : Making, making.Fits envs ∧ (making.run envs).2 = later

abbrev Steps : Environments → Environments → Prop := ReflTransGen Step

/-- At some point on the way to `envs`, `inner` laid over `outer` was `joined`. -/
def Joins (envs : Environments) (inner outer joined : EnvId) : Prop :=
  ∃ before : Environments, Steps {} before ∧ before.Contains inner ∧ before.Contains outer ∧
    (before.concat inner outer).1 = joined ∧ Steps (before.concat inner outer).2 envs

/-- The way along the parents, each of them older than its extension, meets the bindings one by one
and ends in the empty environment. -/
inductive Chain (envs : Environments) : EnvId → List (Symbol × Binding) → Prop
  | empty : envs.extension? .empty = none → Chain envs .empty []
  | extension {env : EnvId} {extension : Extension} {rest : List (Symbol × Binding)} :
    envs.extension? env = some extension → extension.parent.index < env.index →
    Chain envs extension.parent rest →
    Chain envs env ((extension.name, extension.binding) :: rest)

theorem concat_spec (hcanonical : envs.Canonical) (inner : EnvId) (houter : envs.Contains outer) :
    Grows envs (envs.concat inner outer).2 ∧ (envs.concat inner outer).2.Canonical ∧
      (envs.concat inner outer).2.Contains (envs.concat inner outer).1 ∧
      (envs.concat inner outer).2.entries (envs.concat inner outer).1 =
        envs.entries inner ++ envs.entries outer := by
  obtain ⟨hgrows, hcanonical', hcontains, hentries⟩ :=
    extendAll_spec (envs.entries inner).reverse hcanonical houter
  rw [List.reverse_reverse] at hentries
  exact ⟨hgrows, hcanonical', hcontains, hentries⟩

/-- A step keeps the environments canonical and those that are there as they are. -/
theorem Step.spec (hstep : Step envs later) (hcanonical : envs.Canonical) :
    Grows envs later ∧ later.Canonical := by
  obtain ⟨making, hfits, rfl⟩ := hstep
  cases making with
  | extend parent name binding =>
    exact ⟨extend_grows envs parent name binding, extend_canonical hcanonical hfits name binding⟩
  | singleton name binding =>
    exact ⟨extend_grows envs .empty name binding,
      extend_canonical hcanonical hcanonical.contains_empty name binding⟩
  | concat inner outer =>
    obtain ⟨hgrows, hcanonical', -⟩ := concat_spec hcanonical inner hfits.2
    exact ⟨hgrows, hcanonical'⟩

theorem Steps.spec (hsteps : Steps envs later) (hcanonical : envs.Canonical) :
    Grows envs later ∧ later.Canonical := by
  induction hsteps with
  | refl => exact ⟨.refl envs, hcanonical⟩
  | tail _ hstep ih =>
    obtain ⟨hgrows, hcanonical'⟩ := ih
    obtain ⟨hgrows', hlater⟩ := hstep.spec hcanonical'
    exact ⟨hgrows.trans hgrows', hlater⟩

theorem Canonical.chain (hcanonical : envs.Canonical) (henv : envs.Contains env) :
    envs.Chain env (envs.entries env) := by
  generalize hindex : env.index = index
  induction index using Nat.strongRecOn generalizing env with
  | ind index ih =>
    subst hindex
    by_cases hempty : env = .empty
    · subst hempty
      rw [hcanonical.entries_empty]
      exact .empty hcanonical.extension?_empty
    · obtain ⟨extension, hextension⟩ := hcanonical.extension henv hempty
      have holder := hcanonical.older hextension
      rw [hcanonical.entries_of_extension? hextension]
      exact .extension hextension holder (ih _ holder (Nat.lt_trans holder henv) rfl)

/-- What was laid over what stays in the chains. -/
theorem Joins.spec (hjoins : Joins envs inner outer joined) :
    envs.Contains inner ∧ envs.Contains outer ∧ envs.Contains joined ∧
      envs.entries joined = envs.entries inner ++ envs.entries outer := by
  obtain ⟨before, hbefore, hinner, houter, rfl, hafter⟩ := hjoins
  obtain ⟨-, hcanonical⟩ := hbefore.spec .default
  obtain ⟨hgrows, hcanonical', hcontains, hentries⟩ := concat_spec hcanonical inner houter
  obtain ⟨hgrows', -⟩ := hafter.spec hcanonical'
  have hall := hgrows.trans hgrows'
  refine ⟨hall.contains hinner, hall.contains houter, hgrows'.contains hcontains, ?_⟩
  rw [hgrows'.entries_eq hcontains, hentries, hall.entries_eq hinner, hall.entries_eq houter]

/-- Environments are canonical, and laying them over each other makes them a monoid.  On every run
from the first environment: each chain ends in the empty environment; environments are equal if and
only if their chains are; a name is looked up at its first entry; an environment laid over another
one has the entries of both and looks a name up in the first one first; the empty environment
changes nothing on either side; the order in which three are joined does not matter; and whatever
happens later, what has been handed out keeps its entries. -/
theorem concat_monoid (hsteps : Steps {} envs) :
    (∀ env, envs.Contains env → envs.Chain env (envs.entries env)) ∧
    (∀ left right, envs.Contains left → envs.Contains right →
      (left = right ↔ envs.entries left = envs.entries right)) ∧
    (∀ env name, envs.get? env name = (envs.entries env).lookup name) ∧
    (∀ inner outer, envs.Contains inner → envs.Contains outer →
      Joins (envs.concat inner outer).2 inner outer (envs.concat inner outer).1) ∧
    (∀ inner outer joined, Joins envs inner outer joined → envs.Contains joined ∧
      envs.entries joined = envs.entries inner ++ envs.entries outer ∧
      ∀ name, envs.get? joined name = (envs.get? inner name).or (envs.get? outer name)) ∧
    (∀ env joined, Joins envs .empty env joined ∨ Joins envs env .empty joined → joined = env) ∧
    (∀ first second third front back left right, Joins envs first second front →
      Joins envs front third left → Joins envs second third back →
      Joins envs first back right → left = right) ∧
    ∀ later, Steps envs later → ∀ env, envs.Contains env → later.Contains env ∧
      later.entries env = envs.entries env ∧
      ∀ name, later.get? env name = envs.get? env name := by
  obtain ⟨-, hcanonical⟩ := hsteps.spec .default
  refine ⟨fun env ↦ hcanonical.chain, fun left right hleft hright ↦ ⟨fun heq ↦ heq ▸ rfl,
    hcanonical.eq_of_entries_eq hleft hright⟩, get?_eq_lookup envs, ?_, ?_, ?_, ?_, ?_⟩
  · intro inner outer hinner houter
    exact ⟨envs, hsteps, hinner, houter, rfl, .refl⟩
  · intro inner outer joined hjoins
    obtain ⟨-, -, hjoined, hentries⟩ := hjoins.spec
    refine ⟨hjoined, hentries, fun name ↦ ?_⟩
    rw [get?_eq_lookup, get?_eq_lookup, get?_eq_lookup, hentries, List.lookup_append]
  · rintro env joined (hjoins | hjoins)
    · obtain ⟨-, henv, hjoined, hentries⟩ := hjoins.spec
      rw [hcanonical.entries_empty, List.nil_append] at hentries
      exact hcanonical.eq_of_entries_eq hjoined henv hentries
    · obtain ⟨henv, -, hjoined, hentries⟩ := hjoins.spec
      rw [hcanonical.entries_empty, List.append_nil] at hentries
      exact hcanonical.eq_of_entries_eq hjoined henv hentries
  · intro first second third front back left right hfront hleft hback hright
    obtain ⟨-, -, -, hfront⟩ := hfront.spec
    obtain ⟨-, -, hcontains, hleft⟩ := hleft.spec
    obtain ⟨-, -, -, hback⟩ := hback.spec
    obtain ⟨-, -, hcontains', hright⟩ := hright.spec
    refine hcanonical.eq_of_entries_eq hcontains hcontains' ?_
    rw [hleft, hfront, hright, hback, List.append_assoc]
  · intro later hlater env henv
    obtain ⟨hgrows, -⟩ := hlater.spec hcanonical
    exact ⟨hgrows.contains henv, hgrows.entries_eq henv, hgrows.get?_eq henv⟩

/-- A binding laid over another one of the same name hides it. -/
theorem concat_monoid_hidden : ∃ (envs : Environments) (inner outer joined : EnvId),
    Steps {} envs ∧ Joins envs inner outer joined ∧
    envs.entries joined = [(⟨0⟩, .node ⟨10⟩), (⟨0⟩, .node ⟨20⟩)] ∧
    envs.get? outer ⟨0⟩ = some (.node ⟨20⟩) ∧ envs.get? joined ⟨0⟩ = some (.node ⟨10⟩) := by
  let first := ({} : Environments).extend .empty ⟨0⟩ (.node ⟨10⟩)
  let second := first.2.extend .empty ⟨0⟩ (.node ⟨20⟩)
  let third := second.2.concat first.1 second.1
  have hfirst : Steps {} first.2 := .single ⟨.singleton ⟨0⟩ (.node ⟨10⟩), trivial, rfl⟩
  have hsecond : Steps {} second.2 := hfirst.tail ⟨.singleton ⟨0⟩ (.node ⟨20⟩), trivial, rfl⟩
  obtain ⟨-, hcanonical⟩ := hfirst.spec .default
  have hgrows : Grows first.2 second.2 := extend_grows first.2 .empty ⟨0⟩ (.node ⟨20⟩)
  have hcontains : first.2.Contains first.1 := contains_extend .default .empty ⟨0⟩ (.node ⟨10⟩)
  have hinner : second.2.Contains first.1 := hgrows.contains hcontains
  have houter : second.2.Contains second.1 := contains_extend hcanonical .empty ⟨0⟩ (.node ⟨20⟩)
  have hentries : second.2.entries first.1 = [(⟨0⟩, .node ⟨10⟩)] := by
    rw [hgrows.entries_eq hcontains, entries_extend .default, entries_default]
  have hentries' : second.2.entries second.1 = [(⟨0⟩, .node ⟨20⟩)] := by
    rw [entries_extend hcanonical, hcanonical.entries_empty]
  have hthird : Step second.2 third.2 := ⟨.concat first.1 second.1, ⟨hinner, houter⟩, rfl⟩
  have hjoins : Joins third.2 first.1 second.1 third.1 :=
    ⟨second.2, hsecond, hinner, houter, rfl, .refl⟩
  obtain ⟨-, -, hlookup, -, hjoined, -⟩ := concat_monoid (hsecond.tail hthird)
  obtain ⟨-, -, -, -, -, -, -, hkept⟩ := concat_monoid hsecond
  obtain ⟨-, hfirst', -⟩ := hkept _ (.single hthird) _ hinner
  obtain ⟨-, hsecond', -⟩ := hkept _ (.single hthird) _ houter
  obtain ⟨-, hall, -⟩ := hjoined _ _ _ hjoins
  rw [hfirst', hsecond', hentries, hentries'] at hall
  rw [hentries'] at hsecond'
  exact ⟨third.2, _, _, _, hsecond.tail hthird, hjoins, hall, by rw [hlookup, hsecond']; rfl,
    by rw [hlookup, hall]; rfl⟩

end Whence.Environments
