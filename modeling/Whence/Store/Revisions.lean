import Whence.Identifier

/-!
# Revisions

Revisions form a tree that grows at its leaves and its inner nodes alike.  Each but the root is kept
with its parent, the revision that was current when it was opened.  A parent is older than what is
opened on it, so that the way along the parents ends.
-/

namespace Whence

/-- At first there is the root alone, and it has no parent. -/
theorem Revision.older_of_root {index : Nat} {parent : Revision}
    (hparent : (#[none] : Array (Option Revision))[index]? = some (some parent)) :
    parent.index < index := by
  cases index <;> simp at hparent

@[ext] structure Revisions where
  parents : Array (Option Revision) := #[none]
  current : Revision := .root
  older : ∀ {index : Nat} {parent : Revision}, parents[index]? = some (some parent) →
    parent.index < index := by exact Revision.older_of_root
  current_lt : current.index < parents.size := by exact Nat.one_pos

namespace Revisions

def size (revisions : Revisions) : Nat := revisions.parents.size

def contains (revisions : Revisions) (revision : Revision) : Bool :=
  revision.index < revisions.parents.size

/-- The root has no parent, nor has a revision that does not exist. -/
def parent? (revisions : Revisions) (revision : Revision) : Option Revision :=
  revisions.parents[revision.index]?.join

theorem parent?_lt {revisions : Revisions} {revision parent : Revision}
    (hparent : revisions.parent? revision = some parent) : parent.index < revision.index :=
  revisions.older (Option.join_eq_some_iff.1 hparent)

/-- The revision itself, then its parent, and so on up to the root. -/
@[semireducible] def lineage (revisions : Revisions) (revision : Revision) : List Revision :=
  revision :: match _hparent : revisions.parent? revision with
    | some parent => revisions.lineage parent
    | none => []
termination_by revision.index
decreasing_by exact parent?_lt _hparent

/-- Whether `earlier` is `later` or one of its ancestors. -/
def precedes (revisions : Revisions) (earlier later : Revision) : Bool :=
  (revisions.lineage later).contains earlier

/-- Opens a revision on the current one and makes it current. -/
def spawn (revisions : Revisions) : Revision × Revisions :=
  let revision : Revision := ⟨revisions.parents.size⟩
  (revision, {
    parents := revisions.parents.push (some revisions.current)
    current := revision
    older := fun {index _} hparent ↦ by
      rw [Array.getElem?_push] at hparent
      split at hparent
      case isTrue hindex =>
        cases hparent
        exact hindex ▸ revisions.current_lt
      case isFalse => exact revisions.older hparent
    current_lt := by simp [revision] })

/-- Makes a revision current if it exists. -/
def checkout? (revisions : Revisions) (revision : Revision) : Option Revisions :=
  if hrevision : revision.index < revisions.parents.size then
    some { revisions with current := revision, current_lt := hrevision }
  else none

end Revisions

end Whence
