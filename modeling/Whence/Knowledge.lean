import Whence.Explanation
import Whence.Value

/-!
# What is known about a node

A node may have an explanation, a value, both or neither.
-/

namespace Whence

structure Knowledge where
  explanation : Option Explanation := none
  value : Option Value := none
  deriving DecidableEq, Repr

namespace Knowledge

def blank : Knowledge := {}

/-- Full knowledge. -/
def of (explanation : Explanation) (value : Value) : Knowledge := ⟨some explanation, some value⟩

def isBlank (knowledge : Knowledge) : Bool :=
  knowledge.explanation.isNone && knowledge.value.isNone

def canonical (knowledge : Knowledge) : Knowledge :=
  { knowledge with value := knowledge.value.map Value.canonical }

/-- Whether two pieces of knowledge say the same, numbers being compared as knowledge is. -/
def same (left right : Knowledge) : Bool := left.canonical = right.canonical

protected def merge (left right : Knowledge) : Except Conflict Knowledge := do
  let explanation ← merge left.explanation right.explanation
  let value ← merge left.value right.value
  pure ⟨explanation, value⟩

instance : Merge Knowledge := ⟨Knowledge.merge⟩

end Knowledge

end Whence
