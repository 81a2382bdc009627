import Whence.Identifier

/-!
# Addresses

The address of a node says where its value comes from and does not depend on when it was first
computed: from evaluating an expression in an environment, or from outside the program.  An input
has no other identity than the node it was given.
-/

namespace Whence

inductive Address where
  | evaluation (env : EnvId) (expr : ExprId)
  | input (node : NodeId)
  deriving DecidableEq, Hashable, Repr

namespace Address

def text : Address → String
  | .evaluation env expr => "e" ++ toString expr.index ++ "@env" ++ toString env.index
  | .input node => "input:" ++ node.text

def expr? : Address → Option ExprId
  | .evaluation _ expr => some expr
  | .input _ => none

def isInput : Address → Bool
  | .evaluation _ _ => false
  | .input _ => true

end Address

end Whence
