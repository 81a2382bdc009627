import Whence.Proofs.Ordering

/-!
# Merging gives least upper bounds

An outcome of merging is known by the pieces that are above it: a conflict has none, and a merged
piece is the least of those above both operands.  The laws of merging follow from this, up to saying
the same: since the left one of two numbers is kept, merging in another order may give another number
with the same representative.
-/

namespace Whence

variable {α : Type}

namespace Merge

section Above

variable [Merge α] [OrderedMerge α] {left right bound : α} {outcome : Except Conflict α}

/-- The outcome is a piece, and `bound` says at least what it says. -/
def Under (outcome : Except Conflict α) (bound : α) : Prop :=
  ∃ piece, outcome = .ok piece ∧ below piece bound

theorem under_ok {piece : α} : Under (.ok piece) bound ↔ below piece bound := by
  constructor
  · rintro ⟨_, heq, hbelow⟩
    cases heq
    exact hbelow
  · exact fun hbelow ↦ ⟨piece, rfl, hbelow⟩

theorem not_under_error {conflict : Conflict} : ¬Under (.error conflict) bound := by
  rintro ⟨piece, heq, -⟩
  cases heq

theorem under_merge : Under (merge left right) bound ↔ below left bound ∧ below right bound := by
  constructor
  · rintro ⟨merged, hmerge, hbelow⟩
    exact (below_iff_of_merge hmerge).1 hbelow
  · rintro ⟨hleft, hright⟩
    obtain ⟨merged, hmerge⟩ := merge_of_bounded hleft hright
    exact ⟨merged, hmerge, (below_iff_of_merge hmerge).2 ⟨hleft, hright⟩⟩

/-- Going on from an outcome to another one that is bounded by it and by a condition. -/
theorem under_bind {next : α → Except Conflict α} {condition : Prop}
    (hnext : ∀ piece, Under (next piece) bound ↔ below piece bound ∧ condition) :
    Under (outcome >>= next) bound ↔ Under outcome bound ∧ condition := by
  cases outcome with
  | error conflict =>
    constructor
    · exact fun hunder ↦ absurd hunder not_under_error
    · exact fun hunder ↦ absurd hunder.1 not_under_error
  | ok piece =>
    rw [under_ok]
    exact hnext piece

theorem under_merge_left :
    Under (outcome >>= fun piece ↦ merge piece right) bound ↔
      Under outcome bound ∧ below right bound :=
  under_bind fun _ ↦ under_merge

theorem under_merge_right :
    Under (outcome >>= fun piece ↦ merge left piece) bound ↔
      Under outcome bound ∧ below left bound :=
  under_bind fun _ ↦ under_merge.trans and_comm

/-- Merging succeeds exactly if there is a piece above both operands. -/
theorem exists_merge_iff :
    (∃ merged, merge left right = .ok merged) ↔ ∃ bound, below left bound ∧ below right bound := by
  constructor
  · rintro ⟨merged, hmerge⟩
    exact ⟨merged, below_left hmerge, below_right hmerge⟩
  · rintro ⟨bound, hleft, hright⟩
    exact merge_of_bounded hleft hright

end Above

end Merge

namespace Knowledge

open Merge

/-- Both outcomes are conflicts, or both are knowledge and say the same. -/
def Agree : Except Conflict Knowledge → Except Conflict Knowledge → Prop
  | .ok left, .ok right => left.same right = true
  | .error _, .error _ => True
  | _, _ => False

/-- Merging the first piece into the second one gives the second one. -/
def CarriedBy (knowledge held : Knowledge) : Prop := Agree (merge knowledge held) (.ok held)

/-- Outcomes agree if the same pieces are above them. -/
theorem agree_iff {left right : Except Conflict Knowledge} :
    Agree left right ↔ ∀ bound, Under left bound ↔ Under right bound := by
  cases left with
  | error conflict =>
    cases right with
    | error conflict' =>
      exact iff_of_true trivial fun bound ↦ iff_of_false not_under_error not_under_error
    | ok right =>
      refine iff_of_false id fun hbounds ↦ not_under_error ((hbounds right).2 ?_)
      exact under_ok.2 (below_refl right)
  | ok left =>
    cases right with
    | error conflict =>
      refine iff_of_false id fun hbounds ↦ not_under_error ((hbounds left).1 ?_)
      exact under_ok.2 (below_refl left)
    | ok right =>
      simp only [under_ok]
      constructor
      · intro hsame bound
        obtain ⟨hleft, hright⟩ := same_iff.1 hsame
        exact ⟨below_trans hright, below_trans hleft⟩
      · intro hbounds
        exact same_iff.2 ⟨(hbounds right).2 (below_refl right), (hbounds left).1 (below_refl left)⟩

theorem carriedBy_iff {knowledge held : Knowledge} :
    knowledge.CarriedBy held ↔ below knowledge held := by
  rw [CarriedBy, agree_iff]
  constructor
  · intro hbounds
    exact (under_merge.1 ((hbounds held).2 (under_ok.2 (below_refl held)))).1
  · intro hbelow bound
    rw [under_merge, under_ok]
    exact ⟨And.right, fun hheld ↦ ⟨below_trans hbelow hheld, hheld⟩⟩

theorem merge_blank_left (knowledge : Knowledge) : merge blank knowledge = .ok knowledge := rfl

theorem merge_blank_right (knowledge : Knowledge) : merge knowledge blank = .ok knowledge := by
  obtain ⟨explanation, value⟩ := knowledge
  cases explanation <;> cases value <;> rfl

theorem agree_merge_comm (first second : Knowledge) :
    Agree (merge first second) (merge second first) := by
  refine agree_iff.2 fun bound ↦ ?_
  rw [under_merge, under_merge, and_comm]

theorem agree_merge_assoc (first second third : Knowledge) :
    Agree (merge first second >>= fun merged ↦ merge merged third)
      (merge second third >>= fun merged ↦ merge first merged) := by
  refine agree_iff.2 fun bound ↦ ?_
  calc Under (merge first second >>= fun merged ↦ merge merged third) bound
    _ ↔ (below first bound ∧ below second bound) ∧ below third bound := by
      rw [under_merge_left, under_merge]
    _ ↔ (below second bound ∧ below third bound) ∧ below first bound := by
      rw [and_assoc, and_comm]
    _ ↔ Under (merge second third >>= fun merged ↦ merge first merged) bound := by
      rw [under_merge_right, under_merge]

/-- Merging is the partial least upper bound of what can be known about a node.  It gives a piece
merged with itself or with nothing back; up to saying the same it does not depend on the order of the
operands nor on their grouping; being carried is a partial order; and two pieces can be merged
exactly if some piece carries both, in which case the merged one is the least that does. -/
theorem merge_leastUpperBound (first second third : Knowledge) :
    merge first first = .ok first ∧
    merge blank first = .ok first ∧ merge first blank = .ok first ∧
    Agree (merge first second) (merge second first) ∧
    Agree (merge first second >>= fun merged ↦ merge merged third)
      (merge second third >>= fun merged ↦ merge first merged) ∧
    first.CarriedBy first ∧
    (first.CarriedBy second ∧ second.CarriedBy first ↔ first.same second = true) ∧
    (first.CarriedBy second ∧ second.CarriedBy third → first.CarriedBy third) ∧
    ((∃ merged, merge first second = .ok merged) ↔
      ∃ bound, first.CarriedBy bound ∧ second.CarriedBy bound) ∧
    ∀ merged, merge first second = .ok merged →
      first.CarriedBy merged ∧ second.CarriedBy merged ∧
      ∀ bound, first.CarriedBy bound → second.CarriedBy bound → merged.CarriedBy bound := by
  simp only [carriedBy_iff]
  refine ⟨merge_self first, merge_blank_left first, merge_blank_right first,
    agree_merge_comm first second, agree_merge_assoc first second third, below_refl first,
    same_iff.symm, fun hbelow ↦ below_trans hbelow.1 hbelow.2, exists_merge_iff,
    fun merged hmerge ↦ ?_⟩
  refine ⟨below_left hmerge, below_right hmerge, fun bound hfirst hsecond ↦ ?_⟩
  exact (below_iff_of_merge hmerge).2 ⟨hfirst, hsecond⟩

end Knowledge

end Whence
