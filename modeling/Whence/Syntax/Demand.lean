import Whence.Identifier
import Whence.Symbol

/-!
# Demands

A demand says how much of a value to compute and how to take it apart.  It is kept as one layer;
what comes next, once the layer is satisfied, is the body to evaluate or the demand on the next
argument of the surrounding constructor.
-/

namespace Whence

/-- What follows a satisfied demand. -/
inductive Next where
  | done
  | body (expr : ExprId)
  /-- The demand on the next constructor argument. -/
  | demand (id : DemandId)
  deriving DecidableEq, Hashable, Repr

inductive Demand where
  /-- Binds the value and computes nothing. -/
  | bind (name : Symbol) (next : Next)
  | number (next : Next)
  | text (next : Next)
  | function (next : Next)
  /-- One continuation for each accepted tag. -/
  | constructor (cases : List (Symbol × Next))
  /-- Computes the whole value and binds nothing. -/
  | everything (next : Next)
  deriving DecidableEq, Hashable, Repr

namespace Demand

def kind : Demand → String
  | .bind _ _ => "variable"
  | .number _ => "number"
  | .text _ => "string"
  | .function _ => "function"
  | .constructor _ => "constructor"
  | .everything _ => "value"

/-- What follows for a constructor with this tag. -/
def case? (tag : Symbol) : Demand → Option Next
  | .constructor cases => cases.lookup tag
  | _ => none

/-- What follows a demand that is not on constructors. -/
def next? : Demand → Option Next
  | .bind _ next | .number next | .text next | .function next | .everything next => some next
  | .constructor _ => none

def isBind : Demand → Bool
  | .bind _ _ => true
  | _ => false

end Demand

namespace DemandId

/-! Every program starts with the four demands that evaluation itself makes. -/

def everything : DemandId := ⟨0⟩
def function : DemandId := ⟨1⟩
def number : DemandId := ⟨2⟩
def text : DemandId := ⟨3⟩

end DemandId

end Whence
