import Whence.Identifier

/-!
# Marks, directions and targets

A pass over a computation attaches one of two marks to expressions and nodes.  In a forward pass
the upper mark means that the target is available, in a backward pass that it is needed.
-/

namespace Whence

/-- The two-point order `bot < top`. -/
inductive Mark where
  | bot
  | top
  deriving DecidableEq, Repr

namespace Mark

def join : Mark → Mark → Mark
  | .bot, .bot => .bot
  | _, _ => .top

def meet : Mark → Mark → Mark
  | .top, .top => .top
  | _, _ => .bot

def negate : Mark → Mark
  | .bot => .top
  | .top => .bot

end Mark

inductive Direction where
  | forward
  | backward
  deriving DecidableEq, Repr

namespace Direction

/-- The mark of everything before the pass touches it. -/
def initial : Direction → Mark
  | .forward => .top
  | .backward => .bot

def text : Direction → String
  | .forward => "forward"
  | .backward => "backward"

end Direction

/-- What can carry a mark. -/
inductive Target where
  | expr (id : ExprId)
  | node (id : NodeId)
  deriving DecidableEq, Hashable, Repr

namespace Target

def text : Target → String
  | .expr id => "expression e" ++ toString id.index
  | .node id => "node " ++ id.text

def expr? : Target → Option ExprId
  | .expr id => some id
  | .node _ => none

def node? : Target → Option NodeId
  | .expr _ => none
  | .node id => some id

/-- Expressions come before nodes, and each kind in the order of its numbers. -/
def precedes : Target → Target → Bool
  | .expr left, .expr right => left.index ≤ right.index
  | .expr _, .node _ => true
  | .node _, .expr _ => false
  | .node left, .node right => left.index ≤ right.index

end Target

end Whence
