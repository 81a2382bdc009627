import Mathlib.Data.List.Infix
import Whence.Proofs.Reachability

/-!
# Lineages

Whatever revisions have been opened and gone back to, each of them but the root stands on an older
one, and its lineage is the way from it along the parents down to the root.  Lineages are ends of
each other: one revision precedes another if and only if its lineage ends the lineage of the other.
This makes precedence an order, in which what precedes a revision forms a chain.
-/

namespace Whence.Revisions

variable {revisions : Revisions} {revision parent earlier later other : Revision}

/-- What is done with revisions. -/
inductive Change where
  | spawn
  | checkout (revision : Revision)

/-- The revisions after a change.  A refusal changes nothing. -/
def Change.run (revisions : Revisions) : Change → Revisions
  | .spawn => revisions.spawn.2
  | .checkout revision => (revisions.checkout? revision).getD revisions

def after (revisions : Revisions) (changes : List Change) : Revisions :=
  changes.foldl Change.run revisions

/-- Every revision but the root has a parent. -/
def Rooted (revisions : Revisions) : Prop :=
  ∀ revision, revisions.contains revision = true → revision ≠ .root →
    ∃ parent, revisions.parent? revision = some parent

/-- The lineage is the way from the revision along the parents, ever older, down to the root. -/
structure Descends (revisions : Revisions) (revision : Revision) : Prop where
  head : (revisions.lineage revision).head? = some revision
  parents : (revisions.lineage revision).IsChain
    fun later earlier ↦ revisions.parent? later = some earlier
  older : (revisions.lineage revision).Pairwise fun later earlier ↦ earlier.index < later.index
  last : (revisions.lineage revision).getLast? = some .root

/-- Precedence is an order on the existing revisions.  The root precedes all of them, and of two that
precede a third one, one precedes the other. -/
structure Ordered (revisions : Revisions) : Prop where
  refl : ∀ {revision}, revisions.contains revision = true →
    revisions.precedes revision revision = true
  antisymm : ∀ {first second}, revisions.contains first = true → revisions.contains second = true →
    revisions.precedes first second = true → revisions.precedes second first = true → first = second
  trans : ∀ {first second third}, revisions.contains third = true →
    revisions.precedes first second = true → revisions.precedes second third = true →
    revisions.precedes first third = true
  root : ∀ {revision}, revisions.contains revision = true → revisions.precedes .root revision = true
  chain : ∀ {first second later}, revisions.contains later = true →
    revisions.precedes first later = true → revisions.precedes second later = true →
    revisions.precedes first second = true ∨ revisions.precedes second first = true

/-- Opening a revision makes one, which becomes the current one. -/
theorem contains_spawn_iff : revisions.spawn.2.contains revision = true ↔
    revisions.contains revision = true ∨ revision = revisions.spawn.2.current := by
  obtain ⟨index⟩ := revision
  simp only [contains, spawn, Array.size_push, decide_eq_true_eq, Revision.mk.injEq]
  omega

theorem parent?_root (revisions : Revisions) : revisions.parent? .root = none := by
  rw [Option.eq_none_iff_forall_ne_some]
  exact fun _ hparent ↦ Nat.not_lt_zero _ (parent?_lt hparent)

theorem lineage_root (revisions : Revisions) : revisions.lineage .root = [.root] :=
  lineage_of_parentless revisions.parent?_root

namespace Rooted

theorem initial : Rooted {} := by
  intro revision hrevision hroot
  obtain ⟨index⟩ := revision
  have hindex : index < 1 := of_decide_eq_true hrevision
  obtain rfl : index = 0 := by omega
  exact absurd rfl hroot

theorem spawn (hrooted : revisions.Rooted) : revisions.spawn.2.Rooted := by
  intro revision hrevision hroot
  obtain hold | rfl := contains_spawn_iff.1 hrevision
  · rw [parent?_spawn hold]
    exact hrooted revision hold hroot
  · exact ⟨_, revisions.parent?_spawn_current⟩

theorem checkout (hrooted : revisions.Rooted) {final : Revisions}
    (hcheckout : revisions.checkout? revision = some final) : final.Rooted := by
  obtain ⟨_, rfl⟩ := checkout?_eq_some hcheckout
  exact hrooted

end Rooted

/-- A change keeps the revisions that exist and their lineages. -/
theorem Change.run_keeps (change : Change) (hrevision : revisions.contains revision = true) :
    (change.run revisions).contains revision = true ∧
      (change.run revisions).lineage revision = revisions.lineage revision := by
  cases change with
  | spawn => exact ⟨contains_spawn hrevision, lineage_spawn hrevision⟩
  | checkout target =>
    cases hcheckout : revisions.checkout? target with
    | none => simp [Change.run, hcheckout, hrevision]
    | some final =>
      obtain ⟨_, rfl⟩ := checkout?_eq_some hcheckout
      simp only [Change.run, hcheckout, Option.getD_some]
      exact ⟨hrevision, rfl⟩

theorem Change.run_rooted (hrooted : revisions.Rooted) (change : Change) :
    (change.run revisions).Rooted := by
  cases change with
  | spawn => exact hrooted.spawn
  | checkout target =>
    cases hcheckout : revisions.checkout? target with
    | none => simpa [Change.run, hcheckout] using hrooted
    | some final => simpa [Change.run, hcheckout] using hrooted.checkout hcheckout

theorem after_rooted (hrooted : revisions.Rooted) (changes : List Change) :
    (revisions.after changes).Rooted := by
  induction changes generalizing revisions with
  | nil => exact hrooted
  | cons change changes ih => exact ih (change.run_rooted hrooted)

theorem after_keeps (changes : List Change) (hrevision : revisions.contains revision = true) :
    (revisions.after changes).contains revision = true ∧
      (revisions.after changes).lineage revision = revisions.lineage revision := by
  induction changes generalizing revisions with
  | nil => exact ⟨hrevision, rfl⟩
  | cons change changes ih =>
    obtain ⟨hcontains, hlineage⟩ := change.run_keeps hrevision
    obtain ⟨hcontains', hlineage'⟩ := ih hcontains
    exact ⟨hcontains', hlineage'.trans hlineage⟩

namespace Rooted

/-- What holds of the root and goes from a revision to those that stand on it holds of all. -/
@[elab_as_elim]
theorem induction (hrooted : revisions.Rooted) {motive : Revision → Prop} (root : motive .root)
    (stands : ∀ {revision parent : Revision}, revisions.contains revision = true →
      revisions.parent? revision = some parent → motive parent → motive revision)
    (hrevision : revisions.contains revision = true) : motive revision := by
  induction revision using lineage.induct revisions with
  | case1 revision ih =>
    by_cases hroot : revision = .root
    · exact hroot ▸ root
    · obtain ⟨parent, hparent⟩ := hrooted revision hrevision hroot
      exact stands hrevision hparent
        (ih parent hparent (contains_of_lt hrevision (parent?_lt hparent)))

theorem descends (hrooted : revisions.Rooted) (hrevision : revisions.contains revision = true) :
    revisions.Descends revision := by
  refine hrooted.induction ?_ (fun {revision parent} _ hparent ih ↦ ?_) hrevision
  · constructor <;> simp [lineage_root]
  · have hlineage := lineage_of_parent hparent
    have hlt := parent?_lt hparent
    obtain ⟨ancestors, hrest, hancestors⟩ := revisions.exists_ancestors parent
    have hchain := ih.parents
    have holder := ih.older
    have hlast := ih.last
    rw [hrest] at hchain holder hlast
    constructor
    · rw [hlineage, List.head?_cons]
    · rw [hlineage, hrest]
      exact .cons_cons hparent hchain
    · rw [hlineage, hrest]
      refine .cons (List.forall_mem_cons.2 ⟨hlt, fun ancestor hancestor ↦ ?_⟩) holder
      exact Nat.lt_trans (hancestors ancestor hancestor) hlt
    · rw [hlineage, hrest, List.getLast?_cons_cons, hlast]

end Rooted

/-! ## The order -/

theorem mem_lineage (revisions : Revisions) (revision : Revision) :
    revision ∈ revisions.lineage revision := by
  obtain ⟨ancestors, hlineage, -⟩ := revisions.exists_ancestors revision
  rw [hlineage]
  exact List.mem_cons_self

/-- The lineages of ancestors are ends of the lineage. -/
theorem suffix_of_mem (hlater : revisions.contains later = true) :
    ∀ earlier ∈ revisions.lineage later, revisions.contains earlier = true ∧
      revisions.lineage earlier <:+ revisions.lineage later := by
  induction later using lineage.induct revisions with
  | case1 later ih =>
    intro earlier hmem
    cases hparent : revisions.parent? later with
    | none =>
      rw [lineage_of_parentless hparent, List.mem_singleton] at hmem
      subst hmem
      exact ⟨hlater, List.suffix_rfl⟩
    | some parent =>
      have hlineage := lineage_of_parent hparent
      rw [hlineage] at hmem
      obtain rfl | hmem := List.mem_cons.1 hmem
      · exact ⟨hlater, List.suffix_rfl⟩
      · obtain ⟨hearlier, hsuffix⟩ :=
          ih parent hparent (contains_of_lt hlater (parent?_lt hparent)) earlier hmem
        exact ⟨hearlier, hlineage ▸ hsuffix.trans (List.suffix_cons _ _)⟩

theorem suffix_of_precedes (hlater : revisions.contains later = true)
    (hprecedes : revisions.precedes earlier later = true) :
    revisions.contains earlier = true ∧ revisions.lineage earlier <:+ revisions.lineage later :=
  suffix_of_mem hlater earlier (List.contains_iff_mem.1 hprecedes)

theorem precedes_of_suffix (hsuffix : revisions.lineage earlier <:+ revisions.lineage later) :
    revisions.precedes earlier later = true :=
  List.contains_iff_mem.2 (hsuffix.subset (revisions.mem_lineage earlier))

theorem Rooted.ordered (hrooted : revisions.Rooted) : revisions.Ordered where
  refl _ := precedes_of_suffix List.suffix_rfl
  antisymm {first second} _ _ hle hge := by
    have hindex : first.index = second.index := by
      refine Nat.le_antisymm (Nat.le_of_not_lt fun hlt ↦ ?_) (Nat.le_of_not_lt fun hlt ↦ ?_)
      · exact Bool.noConfusion (hle.symm.trans (not_precedes_of_lt hlt))
      · exact Bool.noConfusion (hge.symm.trans (not_precedes_of_lt hlt))
    obtain ⟨index⟩ := first
    exact congrArg Revision.mk hindex
  trans hthird hfirst hsecond := by
    obtain ⟨hmiddle, hsuffix⟩ := suffix_of_precedes hthird hsecond
    obtain ⟨-, hsuffix'⟩ := suffix_of_precedes hmiddle hfirst
    exact precedes_of_suffix (hsuffix'.trans hsuffix)
  root hrevision :=
    List.contains_iff_mem.2 (List.mem_of_getLast? (hrooted.descends hrevision).last)
  chain hlater hfirst hsecond := by
    obtain ⟨-, hsuffix⟩ := suffix_of_precedes hlater hfirst
    obtain ⟨-, hsuffix'⟩ := suffix_of_precedes hlater hsecond
    obtain hsuffix | hsuffix := List.suffix_or_suffix_of_suffix hsuffix hsuffix'
    · exact .inl (precedes_of_suffix hsuffix)
    · exact .inr (precedes_of_suffix hsuffix)

/-- A new revision stands above what precedes the one on which it is opened. -/
theorem precedes_spawn_current_iff :
    revisions.spawn.2.precedes earlier revisions.spawn.2.current = true ↔
      earlier = revisions.spawn.2.current ∨ revisions.precedes earlier revisions.current = true := by
  rw [precedes, lineage_spawn_current, precedes, List.contains_iff_mem, List.contains_iff_mem,
    List.mem_cons]

/-- A new revision precedes nothing but itself. -/
theorem spawn_current_precedes_iff (hlater : revisions.spawn.2.contains later = true) :
    revisions.spawn.2.precedes revisions.spawn.2.current later = true ↔
      later = revisions.spawn.2.current := by
  constructor
  · intro hprecedes
    obtain hold | hnew := contains_spawn_iff.1 hlater
    · have hlt : later.index < revisions.spawn.2.current.index := of_decide_eq_true hold
      exact Bool.noConfusion (hprecedes.symm.trans (not_precedes_of_lt hlt))
    · exact hnew
  · rintro rfl
    exact precedes_of_suffix List.suffix_rfl

/-- Revisions form a tree that precedence orders.  However revisions have been opened and gone back
to: every revision but the root has an older parent, and each lineage is the way along the parents
to the root; precedence is an order in which the root comes first and whatever precedes a revision
forms a chain; the next revision that is opened is a new one above the current one and its ancestors
and below itself only; and whatever follows, the revisions that exist precede each other as before. -/
theorem after_treelike (changes : List Change) :
    let revisions := ({} : Revisions).after changes
    let (opened, final) := revisions.spawn
    (revisions.parent? .root = none ∧
      ∀ revision, revisions.contains revision = true → revision ≠ .root →
        ∃ parent, revisions.parent? revision = some parent ∧ parent.index < revision.index) ∧
    (∀ revision, revisions.contains revision = true → revisions.Descends revision) ∧
    revisions.Ordered ∧
    (revisions.contains opened = false ∧
      (∀ revision, final.contains revision = true ↔
        revisions.contains revision = true ∨ revision = opened) ∧
      (∀ revision, final.precedes revision opened = true ↔
        revision = opened ∨ revision ∈ revisions.lineage revisions.current) ∧
      ∀ revision, final.contains revision = true →
        (final.precedes opened revision = true ↔ revision = opened)) ∧
    ∀ later earlier revision, revisions.contains earlier = true →
      revisions.contains revision = true →
        (revisions.after later).contains earlier = true ∧
        (revisions.after later).contains revision = true ∧
        (revisions.after later).precedes earlier revision = revisions.precedes earlier revision := by
  intro revisions
  have hrooted : revisions.Rooted := after_rooted Rooted.initial changes
  refine ⟨⟨revisions.parent?_root, fun revision hrevision hroot ↦ ?_⟩, fun _ ↦ hrooted.descends,
    hrooted.ordered, ⟨contains_spawn_current revisions, fun _ ↦ contains_spawn_iff, fun earlier ↦ ?_,
      fun _ ↦ spawn_current_precedes_iff⟩, fun later earlier revision hearlier hrevision ↦ ?_⟩
  · obtain ⟨parent, hparent⟩ := hrooted revision hrevision hroot
    exact ⟨parent, hparent, parent?_lt hparent⟩
  · exact precedes_spawn_current_iff.trans (or_congr_right List.contains_iff_mem)
  · obtain ⟨hrevision', hlineage⟩ := after_keeps later hrevision
    refine ⟨(after_keeps later hearlier).1, hrevision', ?_⟩
    rw [precedes, hlineage, precedes]

end Whence.Revisions
