import Whence.Identifier
import Whence.Number
import Whence.Primitive
import Whence.Symbol
import Whence.Text.Quoted

/-!
# Conflicts

Two pieces of knowledge about the same thing conflict when they have different forms, when they
hold different leaves at some place, or when they hold sequences of different lengths there.
-/

namespace Whence

/-- What can stand at a leaf of a piece of knowledge. -/
inductive Leaf where
  | natural (value : Nat)
  | truth (value : Bool)
  | text (value : String)
  | number (value : Number)
  | symbol (value : Symbol)
  | node (value : NodeId)
  | env (value : EnvId)
  | expr (value : ExprId)
  | scope (value : Scope)
  | unary (value : UnaryOp)
  | binary (value : BinaryOp)
  deriving DecidableEq, Repr

namespace Leaf

def tagged (tag : String) (index : Nat) : String := tag ++ "(" ++ toString index ++ ")"

def report : Leaf → String
  | .natural value => toString value
  | .truth value => if value then "true" else "false"
  | .text value => Text.Quoted.quote value
  | .number value => value.report
  | .symbol value => tagged "Symbol" value.index
  | .node value => tagged "NodeId" value.index
  | .env value => tagged "EnvId" value.index
  | .expr value => tagged "ExprId" value.index
  | .scope value =>
    "RecScope \x7b env: " ++ tagged "EnvId" value.env.index ++ ", group: " ++
      tagged "RecGroupId" value.group.index ++ " \x7d"
  | .unary value => value.report
  | .binary value => value.report

end Leaf

inductive Conflict where
  /-- Two different forms at the same place. -/
  | form (left right : String)
  /-- Two different leaves at the same place. -/
  | leaf (left right : Leaf)
  /-- Two sequences of different lengths at the same place. -/
  | length (left right : Nat)
  deriving DecidableEq, Repr

namespace Conflict

def message : Conflict → String
  | .form left right => "`" ++ left ++ "` cannot merge with `" ++ right ++ "`"
  | .leaf left right => left.report ++ " != " ++ right.report
  | .length left right =>
    toString left ++ " element(s) cannot merge with " ++ toString right

end Conflict

end Whence
