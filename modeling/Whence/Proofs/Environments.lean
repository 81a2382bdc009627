import Whence.Environment

/-!
# Canonical environments

Environments are interned: an environment other than the empty one is an extension of an older one,
and the table of extensions gives it back.  Hence equal chains are the same environment, making an
environment that exists already changes nothing, and the chain of an environment never changes.
-/

namespace Whence.Environments

variable {envs envs' envs'' : Environments}

/-- The environment has been handed out. -/
def Contains (envs : Environments) (env : EnvId) : Prop := env.index < envs.size

/-- The second collection holds the environments of the first under the same numbers. -/
structure Grows (envs envs' : Environments) : Prop where
  size_le : envs.size ≤ envs'.size
  entries_eq : ∀ {env}, envs.Contains env → envs'.entries env = envs.entries env

/-- Each environment but the empty one extends an older one, and is listed as that extension. -/
structure Canonical (envs : Environments) : Prop where
  empty : envs.frames[0]? = some none
  extension : ∀ {env}, envs.Contains env → env ≠ .empty →
    ∃ extension, envs.extension? env = some extension
  older : ∀ {extension env}, envs.extension? env = some extension →
    extension.parent.index < env.index
  ids : ∀ {extension env}, envs.ids[extension]? = some env ↔ envs.extension? env = some extension

namespace Grows

theorem refl (envs : Environments) : Grows envs envs := ⟨Nat.le_refl _, fun _ ↦ rfl⟩

theorem contains (hgrows : Grows envs envs') {env : EnvId} (henv : envs.Contains env) :
    envs'.Contains env :=
  Nat.lt_of_lt_of_le henv hgrows.size_le

theorem trans (hfirst : Grows envs envs') (hsecond : Grows envs' envs'') : Grows envs envs'' where
  size_le := Nat.le_trans hfirst.size_le hsecond.size_le
  entries_eq henv := by rw [hsecond.entries_eq (hfirst.contains henv), hfirst.entries_eq henv]

end Grows

theorem extension?_of_not_contains {env : EnvId} (henv : ¬envs.Contains env) :
    envs.extension? env = none := by
  rw [extension?, Array.getElem?_eq_none (Nat.le_of_not_lt henv), Option.join_none]

theorem contains_of_extension? {env : EnvId} {extension : Extension}
    (hextension : envs.extension? env = some extension) : envs.Contains env := by
  apply Classical.byContradiction
  intro henv
  rw [extension?_of_not_contains henv] at hextension
  cases hextension

theorem entries_of_extension?_none {env : EnvId} (hextension : envs.extension? env = none) :
    envs.entries env = [] := by
  rw [entries, hextension]

theorem entries_of_not_contains {env : EnvId} (henv : ¬envs.Contains env) :
    envs.entries env = [] :=
  entries_of_extension?_none (extension?_of_not_contains henv)

theorem mem_of_lookup {key value : Type} [BEq key] [LawfulBEq key] {entries : List (key × value)}
    {wanted : key} {found : value} (hlookup : entries.lookup wanted = some found) :
    (wanted, found) ∈ entries := by
  rw [List.lookup_eq_some_iff] at hlookup
  obtain ⟨front, back, hsplit, -⟩ := hlookup
  rw [hsplit]
  exact List.mem_append_right _ List.mem_cons_self

/-- Looking a name up stops at its first entry. -/
theorem get?_eq_lookup (envs : Environments) (env : EnvId) (name : Symbol) :
    envs.get? env name = (envs.entries env).lookup name := by
  generalize hindex : env.index = index
  induction index using Nat.strongRecOn generalizing env with
  | ind index ih =>
    subst hindex
    rw [get?, entries]
    cases hextension : envs.extension? env with
    | none => rfl
    | some extension =>
      obtain ⟨parent, bound, binding⟩ := extension
      dsimp only
      rw [List.lookup_cons]
      by_cases hbound : bound = name
      · simp [hbound]
      · rw [if_neg hbound, beq_eq_false_iff_ne.2 (Ne.symm hbound)]
        by_cases holder : parent.index < env.index
        · rw [dif_pos holder, dif_pos holder, ih _ holder parent rfl]
        · rw [dif_neg holder, dif_neg holder, List.lookup_nil]

theorem mem_of_get? {env : EnvId} {name : Symbol} {binding : Binding}
    (hbinding : envs.get? env name = some binding) : (name, binding) ∈ envs.entries env :=
  mem_of_lookup (by rw [← get?_eq_lookup, hbinding])

theorem Grows.get?_eq (hgrows : Grows envs envs') {env : EnvId} (henv : envs.Contains env)
    (name : Symbol) : envs'.get? env name = envs.get? env name := by
  rw [get?_eq_lookup, get?_eq_lookup, hgrows.entries_eq henv]

theorem contains_of_mem {env : EnvId} {entry : Symbol × Binding}
    (hentry : entry ∈ envs.entries env) : envs.Contains env := by
  by_cases henv : envs.Contains env
  · exact henv
  · rw [entries_of_not_contains henv] at hentry
    simp at hentry

theorem extension?_default (env : EnvId) : ({} : Environments).extension? env = none := by
  by_cases henv : env.index = 0
  · simp [extension?, henv]
  · exact extension?_of_not_contains fun hcontains ↦ henv (Nat.lt_one_iff.1 hcontains)

theorem entries_default (env : EnvId) : ({} : Environments).entries env = [] :=
  entries_of_extension?_none (extension?_default env)

theorem Canonical.default : ({} : Environments).Canonical where
  empty := rfl
  extension {env} henv hne := by
    obtain ⟨index⟩ := env
    cases Nat.lt_one_iff.1 henv
    exact absurd rfl hne
  older hextension := by
    rw [extension?_default] at hextension
    cases hextension
  ids := by simp [extension?_default]

namespace Canonical

theorem contains_empty (hcanonical : envs.Canonical) : envs.Contains .empty := by
  have hempty := hcanonical.empty
  by_cases hsize : 0 < envs.frames.size
  · exact hsize
  · rw [Array.getElem?_eq_none (by omega)] at hempty
    cases hempty

theorem extension?_empty (hcanonical : envs.Canonical) : envs.extension? .empty = none := by
  simp [extension?, EnvId.empty, hcanonical.empty]

theorem entries_empty (hcanonical : envs.Canonical) : envs.entries .empty = [] :=
  entries_of_extension?_none hcanonical.extension?_empty

/-- The chain of an extension is its binding over the chain of its parent. -/
theorem entries_of_extension? (hcanonical : envs.Canonical) {env : EnvId} {extension : Extension}
    (hextension : envs.extension? env = some extension) :
    envs.entries env =
      (extension.name, extension.binding) :: envs.entries extension.parent := by
  rw [entries, hextension]
  dsimp only
  rw [dif_pos (hcanonical.older hextension)]

theorem eq_empty (hcanonical : envs.Canonical) {env : EnvId} (henv : envs.Contains env)
    (hentries : envs.entries env = []) : env = .empty := by
  apply Classical.byContradiction
  intro hne
  obtain ⟨extension, hextension⟩ := hcanonical.extension henv hne
  rw [hcanonical.entries_of_extension? hextension] at hentries
  cases hentries

/-- The parts of a chain that is not empty. -/
theorem parent_of_cons (hcanonical : envs.Canonical) {env : EnvId} (henv : envs.Contains env)
    {name : Symbol} {binding : Binding} {rest : List (Symbol × Binding)}
    (hentries : envs.entries env = (name, binding) :: rest) :
    ∃ parent, envs.Contains parent ∧ envs.entries parent = rest ∧
      envs.ids[(⟨parent, name, binding⟩ : Extension)]? = some env := by
  have hne : env ≠ .empty := by
    rintro rfl
    rw [hcanonical.entries_empty] at hentries
    cases hentries
  obtain ⟨extension, hextension⟩ := hcanonical.extension henv hne
  rw [hcanonical.entries_of_extension? hextension] at hentries
  cases hentries
  exact ⟨extension.parent, Nat.lt_trans (hcanonical.older hextension) henv, rfl,
    hcanonical.ids.2 hextension⟩

/-- Equal chains are the same environment. -/
theorem eq_of_entries_eq (hcanonical : envs.Canonical) {left right : EnvId}
    (hleft : envs.Contains left) (hright : envs.Contains right)
    (hentries : envs.entries left = envs.entries right) : left = right := by
  -- The chain is given a name so that the induction reaches the two parents.
  generalize hchain : envs.entries right = chain at hentries
  induction chain generalizing left right with
  | nil => rw [hcanonical.eq_empty hleft hentries, hcanonical.eq_empty hright hchain]
  | cons entry rest ih =>
    obtain ⟨name, binding⟩ := entry
    obtain ⟨leftParent, hleftParent, hleftRest, hleftId⟩ :=
      hcanonical.parent_of_cons hleft hentries
    obtain ⟨rightParent, hrightParent, hrightRest, hrightId⟩ :=
      hcanonical.parent_of_cons hright hchain
    have hparents : leftParent = rightParent := ih hleftParent hrightParent hrightRest hleftRest
    rw [hparents, hrightId] at hleftId
    exact (Option.some.inj hleftId).symm

end Canonical

/-! ## Extending -/

/-- The environment is the extension of its parent. -/
theorem extend_eq_of_entries (hcanonical : envs.Canonical) {parent env : EnvId} {name : Symbol}
    {binding : Binding} (hparent : envs.Contains parent) (henv : envs.Contains env)
    (hentries : envs.entries env = (name, binding) :: envs.entries parent) :
    envs.extend parent name binding = (env, envs) := by
  obtain ⟨other, hother, hrest, hid⟩ := hcanonical.parent_of_cons henv hentries
  rw [hcanonical.eq_of_entries_eq hother hparent hrest] at hid
  simp only [extend, hid]

theorem extend_of_some {parent env : EnvId} {name : Symbol} {binding : Binding}
    (hid : envs.ids[(⟨parent, name, binding⟩ : Extension)]? = some env) :
    envs.extend parent name binding = (env, envs) := by
  simp [extend, hid]

/-- All environments together with a new extension. -/
def push (envs : Environments) (extension : Extension) : Environments :=
  ⟨envs.frames.push (some extension), envs.ids.insert extension ⟨envs.size⟩⟩

theorem extend_of_none {parent : EnvId} {name : Symbol} {binding : Binding}
    (hid : envs.ids[(⟨parent, name, binding⟩ : Extension)]? = none) :
    envs.extend parent name binding =
      (⟨envs.size⟩, envs.push ⟨parent, name, binding⟩) := by
  simp [extend, hid, size, push]

theorem extension?_push (envs : Environments) (extension : Extension) (env : EnvId) :
    (envs.push extension).extension? env =
      if env.index = envs.size then some extension else envs.extension? env := by
  simp only [extension?, push, Array.getElem?_push, size]
  by_cases hindex : env.index = envs.frames.size <;> simp [hindex]

/-- The way along the parents of an environment does not come to new ones. -/
theorem entries_push (envs : Environments) (extension : Extension) {env : EnvId}
    (henv : envs.Contains env) : (envs.push extension).entries env = envs.entries env := by
  generalize hindex : env.index = index
  induction index using Nat.strongRecOn generalizing env with
  | ind index ih =>
    subst hindex
    rw [entries, entries, extension?_push, if_neg (Nat.ne_of_lt henv)]
    cases envs.extension? env with
    | none => rfl
    | some extension =>
      obtain ⟨parent, name, binding⟩ := extension
      by_cases holder : parent.index < env.index
      · simp only [dif_pos holder, ih _ holder (Nat.lt_trans holder henv) rfl]
      · simp only [dif_neg holder]

theorem extend_grows (envs : Environments) (parent : EnvId) (name : Symbol) (binding : Binding) :
    Grows envs (envs.extend parent name binding).2 := by
  cases hid : envs.ids[(⟨parent, name, binding⟩ : Extension)]? with
  | some env =>
    rw [extend_of_some hid]
    exact .refl envs
  | none =>
    rw [extend_of_none hid]
    exact ⟨by simp [size, push], entries_push envs _⟩

theorem entries_extend (hcanonical : envs.Canonical) (parent : EnvId) (name : Symbol)
    (binding : Binding) :
    (envs.extend parent name binding).2.entries (envs.extend parent name binding).1 =
      (name, binding) :: envs.entries parent := by
  cases hid : envs.ids[(⟨parent, name, binding⟩ : Extension)]? with
  | some env =>
    rw [extend_of_some hid]
    exact hcanonical.entries_of_extension? (hcanonical.ids.1 hid)
  | none =>
    rw [extend_of_none hid, entries, extension?_push, if_pos rfl]
    by_cases hparent : envs.Contains parent
    · have holder : parent.index < envs.size := hparent
      simp only [dif_pos holder, entries_push envs _ hparent]
    · have hyounger : ¬parent.index < envs.size := hparent
      simp only [dif_neg hyounger, entries_of_not_contains hparent]

theorem get?_extend (hcanonical : envs.Canonical) (parent : EnvId) (name : Symbol)
    (binding : Binding) :
    (envs.extend parent name binding).2.get? (envs.extend parent name binding).1 name =
      some binding := by
  rw [get?_eq_lookup, entries_extend hcanonical, List.lookup_cons_self]

theorem get?_extend_of_ne (hcanonical : envs.Canonical) (parent : EnvId) {name other : Symbol}
    (binding : Binding) (hne : name ≠ other) :
    (envs.extend parent name binding).2.get? (envs.extend parent name binding).1 other =
      envs.get? parent other := by
  rw [get?_eq_lookup, entries_extend hcanonical, List.lookup_cons, beq_eq_false_iff_ne.2 hne.symm,
    get?_eq_lookup]

theorem contains_extend (hcanonical : envs.Canonical) (parent : EnvId) (name : Symbol)
    (binding : Binding) :
    (envs.extend parent name binding).2.Contains (envs.extend parent name binding).1 := by
  cases hid : envs.ids[(⟨parent, name, binding⟩ : Extension)]? with
  | some env =>
    rw [extend_of_some hid]
    exact contains_of_extension? (hcanonical.ids.1 hid)
  | none =>
    rw [extend_of_none hid]
    simp [Contains, size, push]

/-- Extending makes no environment but the extension. -/
theorem eq_extend_of_contains {parent env : EnvId} {name : Symbol} {binding : Binding}
    (henv : (envs.extend parent name binding).2.Contains env) (hnew : ¬envs.Contains env) :
    env = (envs.extend parent name binding).1 := by
  cases hid : envs.ids[(⟨parent, name, binding⟩ : Extension)]? with
  | some id =>
    rw [extend_of_some hid] at henv
    exact absurd henv hnew
  | none =>
    rw [extend_of_none hid] at henv ⊢
    obtain ⟨index⟩ := env
    simp only [Contains, size, push, Array.size_push] at henv hnew
    simp only [size, EnvId.mk.injEq]
    omega

/-- A new extension of an environment that exists is listed under the next number. -/
theorem push_canonical (hcanonical : envs.Canonical) {extension : Extension}
    (hparent : envs.Contains extension.parent) (hnew : envs.ids[extension]? = none) :
    (envs.push extension).Canonical where
  empty := by
    have hsize : 0 ≠ envs.frames.size := Nat.ne_of_lt hcanonical.contains_empty
    rw [push, Array.getElem?_push, if_neg hsize, hcanonical.empty]
  extension {env} henv hne := by
    rw [extension?_push]
    split
    case isTrue => exact ⟨extension, rfl⟩
    case isFalse hindex =>
      have hlt : env.index < envs.size + 1 := by simpa [Contains, size, push] using henv
      exact hcanonical.extension (Nat.lt_of_le_of_ne (Nat.le_of_lt_succ hlt) hindex) hne
  older {other env} hother := by
    rw [extension?_push] at hother
    split at hother
    case isTrue hindex =>
      cases hother
      rwa [hindex]
    case isFalse => exact hcanonical.older hother
  ids {other env} := by
    rw [push, Std.HashMap.getElem?_insert, ← push, extension?_push]
    by_cases hindex : env.index = envs.size
    · have henv : env = ⟨envs.size⟩ := by rw [← hindex]
      subst henv
      have hunlisted : envs.ids[other]? ≠ some ⟨envs.size⟩ := fun hid ↦
        Nat.lt_irrefl _ (contains_of_extension? (hcanonical.ids.1 hid))
      by_cases hsame : extension = other <;> simp [hsame, hunlisted]
    · have hne : (⟨envs.size⟩ : EnvId) ≠ env := fun heq ↦ hindex (heq ▸ rfl)
      rw [if_neg hindex, ← hcanonical.ids]
      by_cases hsame : extension = other
      · subst hsame
        simp [hnew, hne]
      · simp [hsame]

theorem extend_canonical (hcanonical : envs.Canonical) {parent : EnvId}
    (hparent : envs.Contains parent) (name : Symbol) (binding : Binding) :
    (envs.extend parent name binding).2.Canonical := by
  cases hid : envs.ids[(⟨parent, name, binding⟩ : Extension)]? with
  | some id =>
    rw [extend_of_some hid]
    exact hcanonical
  | none =>
    rw [extend_of_none hid]
    exact push_canonical hcanonical hparent hid

theorem extendAll_spec (bindings : List (Symbol × Binding)) (hcanonical : envs.Canonical)
    {env : EnvId} (henv : envs.Contains env) :
    Grows envs (envs.extendAll env bindings).2 ∧ (envs.extendAll env bindings).2.Canonical ∧
      (envs.extendAll env bindings).2.Contains (envs.extendAll env bindings).1 ∧
      (envs.extendAll env bindings).2.entries (envs.extendAll env bindings).1 =
        bindings.reverse ++ envs.entries env := by
  induction bindings generalizing envs env with
  | nil => exact ⟨.refl envs, hcanonical, henv, rfl⟩
  | cons entry rest ih =>
    obtain ⟨name, binding⟩ := entry
    obtain ⟨hgrows, hcanonical', hcontains, hentries⟩ :=
      ih (extend_canonical hcanonical henv name binding)
        (contains_extend hcanonical env name binding)
    refine ⟨(extend_grows envs env name binding).trans hgrows, hcanonical', hcontains, ?_⟩
    simp only [extendAll]
    rw [hentries, entries_extend hcanonical env name binding]
    simp

/-- A new environment binds the new bindings over those of the extended one. -/
theorem mem_of_extendAll (bindings : List (Symbol × Binding)) (hcanonical : envs.Canonical)
    {env inner : EnvId} (henv : envs.Contains env)
    (hinner : (envs.extendAll env bindings).2.Contains inner) (hnew : ¬envs.Contains inner)
    {entry : Symbol × Binding} (hentry : entry ∈ (envs.extendAll env bindings).2.entries inner) :
    entry ∈ bindings ∨ entry ∈ envs.entries env := by
  induction bindings generalizing envs env with
  | nil => exact absurd hinner hnew
  | cons first rest ih =>
    obtain ⟨name, binding⟩ := first
    have hcanonical' := extend_canonical hcanonical henv name binding
    have hcontains := contains_extend hcanonical env name binding
    have hentries := entries_extend hcanonical env name binding
    by_cases hfirst : (envs.extend env name binding).2.Contains inner
    · have hsame := eq_extend_of_contains hfirst hnew
      subst hsame
      simp only [extendAll] at hentry
      rw [(extendAll_spec rest hcanonical' hcontains).1.entries_eq hcontains, hentries] at hentry
      cases hentry with
      | head => exact .inl List.mem_cons_self
      | tail _ hentry => exact .inr hentry
    · obtain hmem | hmem := ih hcanonical' hcontains hinner hfirst hentry
      · exact .inl (List.mem_cons_of_mem _ hmem)
      · rw [hentries] at hmem
        cases hmem with
        | head => exact .inl List.mem_cons_self
        | tail _ hmem => exact .inr hmem

/-- Making a chain that exists already changes nothing. -/
theorem extendAll_eq_of_entries (bindings : List (Symbol × Binding)) (hcanonical : envs.Canonical)
    {parent env : EnvId} (hparent : envs.Contains parent) (henv : envs.Contains env)
    (hentries : envs.entries env = bindings.reverse ++ envs.entries parent) :
    envs.extendAll parent bindings = (env, envs) := by
  induction bindings generalizing parent with
  | nil => simp [extendAll, hcanonical.eq_of_entries_eq henv hparent hentries]
  | cons entry rest ih =>
    obtain ⟨name, binding⟩ := entry
    -- Every chain that ends in the new binding has an environment, so this one has.
    have hinner : ∃ inner, envs.Contains inner ∧
        envs.entries inner = (name, binding) :: envs.entries parent := by
      have hchain : envs.entries env = rest.reverse ++ (name, binding) :: envs.entries parent := by
        simp [hentries]
      clear ih hentries
      generalize rest.reverse = front at hchain
      induction front generalizing env with
      | nil => exact ⟨env, henv, hchain⟩
      | cons _ _ ih =>
        obtain ⟨parent', hparent', hrest, -⟩ := hcanonical.parent_of_cons henv hchain
        exact ih hparent' hrest
    obtain ⟨inner, hcontains, hinner⟩ := hinner
    simp only [extendAll, extend_eq_of_entries hcanonical hparent hcontains hinner]
    exact ih hcontains (by simp [hentries, hinner])

theorem concat_eq_of_entries (hcanonical : envs.Canonical) {inner outer env : EnvId}
    (houter : envs.Contains outer) (henv : envs.Contains env)
    (hentries : envs.entries env = envs.entries inner ++ envs.entries outer) :
    envs.concat inner outer = (env, envs) :=
  extendAll_eq_of_entries _ hcanonical houter henv (by simp [hentries])

end Whence.Environments
