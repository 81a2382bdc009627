import Whence.Knowledge

/-!
# Merging knowledge with itself

Writing the same knowledge twice leaves it as it was: merging is idempotent at every level, from the
leaves up to what is known about a node.
-/

namespace Whence

/-- Merging a piece of knowledge with itself succeeds and gives it back. -/
class IdempotentMerge (α : Type) [Merge α] : Prop where
  merge_self : ∀ piece : α, merge piece piece = .ok piece

export IdempotentMerge (merge_self)

attribute [simp] IdempotentMerge.merge_self

namespace Merge

theorem leaves_self {α β : Type} [DecidableEq β] (identity : α → β) (leaf : α → Leaf) (piece : α) :
    leaves identity leaf piece piece = .ok piece := by
  simp [leaves]

instance : IdempotentMerge String := ⟨leaves_self _ _⟩
instance : IdempotentMerge Number := ⟨leaves_self _ _⟩
instance : IdempotentMerge Symbol := ⟨leaves_self _ _⟩
instance : IdempotentMerge NodeId := ⟨leaves_self _ _⟩
instance : IdempotentMerge EnvId := ⟨leaves_self _ _⟩
instance : IdempotentMerge ExprId := ⟨leaves_self _ _⟩
instance : IdempotentMerge Scope := ⟨leaves_self _ _⟩
instance : IdempotentMerge UnaryOp := ⟨leaves_self _ _⟩
instance : IdempotentMerge BinaryOp := ⟨leaves_self _ _⟩

variable {α : Type} [Merge α] [IdempotentMerge α]

instance : IdempotentMerge (Option α) where
  merge_self
    | none => rfl
    | some piece => by
      change (merge piece piece).map some = _
      rw [merge_self]
      rfl

theorem places_self (pieces : List α) : places pieces pieces = .ok pieces := by
  induction pieces with
  | nil => rfl
  | cons piece pieces ih =>
    simp only [places, merge_self, ih]
    rfl

instance : IdempotentMerge (List α) where
  merge_self pieces := by
    change sequences pieces pieces = _
    simp [sequences, places_self]

end Merge

instance : IdempotentMerge Member where
  merge_self member := by
    change Member.merge member member = _
    simp only [Member.merge, merge_self]
    rfl

instance : IdempotentMerge DefinitionExplanation where
  merge_self explanation := by
    change DefinitionExplanation.merge explanation explanation = _
    cases explanation <;> simp only [DefinitionExplanation.merge, merge_self] <;> rfl

instance : IdempotentMerge Explanation where
  merge_self explanation := by
    change Explanation.merge explanation explanation = _
    cases explanation <;> simp only [Explanation.merge, merge_self] <;> rfl

instance : IdempotentMerge Closure where
  merge_self closure := by
    change Closure.merge closure closure = _
    simp only [Closure.merge, merge_self]
    rfl

instance : IdempotentMerge PrimitiveValue where
  merge_self primitive := by
    change PrimitiveValue.merge primitive primitive = _
    cases primitive <;> simp only [PrimitiveValue.merge, merge_self] <;> rfl

instance : IdempotentMerge Value where
  merge_self value := by
    change Value.merge value value = _
    cases value <;> simp only [Value.merge, merge_self] <;> rfl

instance : IdempotentMerge Knowledge where
  merge_self knowledge := by
    change Knowledge.merge knowledge knowledge = _
    simp only [Knowledge.merge, merge_self]
    rfl

namespace Knowledge

/-- A closure that is already known to belong to a group stays so when it is met without it. -/
theorem merge_closure_without_scope (env : EnvId) (function : ExprId) (scope : Option Scope) :
    merge (Knowledge.of .given (.closure ⟨env, function, scope⟩))
      (Knowledge.of .given (.closure ⟨env, function, none⟩)) =
        .ok (.of .given (.closure ⟨env, function, scope⟩)) := by
  have hscope : merge scope (none : Option Scope) = .ok scope := by cases scope <;> rfl
  have hclosure : merge (Closure.mk env function scope) (Closure.mk env function none) =
      .ok ⟨env, function, scope⟩ := by
    change Closure.merge _ _ = _
    simp only [Closure.merge, merge_self, hscope]
    rfl
  have hvalue : merge (Value.closure ⟨env, function, scope⟩) (Value.closure ⟨env, function, none⟩) =
      .ok (.closure ⟨env, function, scope⟩) := by
    change Value.merge _ _ = _
    simp only [Value.merge, hclosure]
    rfl
  change (do
    let explanation ← merge (some Explanation.given) (some Explanation.given)
    let value ← (merge (Value.closure ⟨env, function, scope⟩)
      (Value.closure ⟨env, function, none⟩)).map some
    pure (Knowledge.mk explanation value)) = _
  rw [merge_self, hvalue]
  rfl

theorem isBlank_of (explanation : Explanation) (value : Value) :
    (Knowledge.of explanation value).isBlank = false := rfl

end Knowledge

end Whence
