import Whence.Merge.Conflict

/-!
# Merging pieces of knowledge

Merging gives the least piece of knowledge that holds both of its operands, or reports the first
conflict from left to right.  What is absent merges with anything; leaves merge if they are the
same, and the left one is kept; sequences merge if they have the same length, place by place.
-/

namespace Whence

class Merge (α : Type) where
  merge : α → α → Except Conflict α

export Merge (merge)

namespace Merge

/-- Merges leaves that are compared by a function of them. -/
def leaves {α β : Type} [DecidableEq β] (identity : α → β) (leaf : α → Leaf) (left right : α) :
    Except Conflict α :=
  if identity left = identity right then .ok left else .error (.leaf (leaf left) (leaf right))

instance : Merge Nat := ⟨leaves id .natural⟩
instance : Merge Bool := ⟨leaves id .truth⟩
instance : Merge String := ⟨leaves id .text⟩
instance : Merge Number := ⟨leaves Number.canonical .number⟩
instance : Merge Symbol := ⟨leaves id .symbol⟩
instance : Merge NodeId := ⟨leaves id .node⟩
instance : Merge EnvId := ⟨leaves id .env⟩
instance : Merge ExprId := ⟨leaves id .expr⟩
instance : Merge Scope := ⟨leaves id .scope⟩
instance : Merge UnaryOp := ⟨leaves id .unary⟩
instance : Merge BinaryOp := ⟨leaves id .binary⟩

variable {α : Type} [Merge α]

def options : Option α → Option α → Except Conflict (Option α)
  | none, right => .ok right
  | left, none => .ok left
  | some left, some right => (merge left right).map some

instance : Merge (Option α) := ⟨options⟩

/-- Merges place by place as far as both sequences go. -/
def places : List α → List α → Except Conflict (List α)
  | left :: lefts, right :: rights => do
    let first ← merge left right
    let rest ← places lefts rights
    pure (first :: rest)
  | _, _ => .ok []

def sequences (lefts rights : List α) : Except Conflict (List α) :=
  if lefts.length = rights.length then places lefts rights
  else .error (.length lefts.length rights.length)

instance : Merge (List α) := ⟨sequences⟩

end Merge

end Whence
