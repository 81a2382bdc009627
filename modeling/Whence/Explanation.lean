import Whence.Merge.Basic

/-!
# Explanations

An explanation names the rule by which the value of a node was found and the nodes that the rule
used.  Its references are the edges along which slices travel.
-/

namespace Whence

/-- The closure that was made for one definition of a recursive group. -/
structure Member where
  name : Symbol
  closure : NodeId
  deriving DecidableEq, Repr

/-- How one definition of a sequence entered the environment. -/
inductive DefinitionExplanation where
  | value (name : Symbol) (bound : NodeId)
  | primitive (name : Symbol) (node : NodeId)
  | group (members : List Member)
  deriving DecidableEq, Repr

inductive Explanation where
  /-- Literals, constructors, function literals and inputs explain themselves. -/
  | given
  | lookup (name : Symbol) (binding : NodeId)
  /-- `members` are the closures of the recursive group of the applied function, and `matched` the
  nodes below the argument whose form the pattern examined. -/
  | application (function argument : NodeId) (members : List Member) (matched : List NodeId)
      (body : NodeId)
  | unary (function argument : NodeId)
  | binary (function left : NodeId) (op : BinaryOp) (right : NodeId)
  | letIn (name : Symbol) (bound body : NodeId)
  | letRec (members : List Member) (body : NodeId)
  | defs (definitions : List DefinitionExplanation) (body : NodeId)
  | matching (scrutinee : NodeId) (matched : List NodeId) (body : NodeId)
  deriving DecidableEq, Repr

namespace DefinitionExplanation

def dependencies : DefinitionExplanation → List NodeId
  | .value _ bound => [bound]
  | .primitive _ node => [node]
  | .group members => members.map Member.closure

end DefinitionExplanation

namespace Explanation

def kind : Explanation → String
  | .given => "empty"
  | .lookup _ _ => "var"
  | .application _ _ _ _ _ => "app"
  | .unary _ _ => "unary-app"
  | .binary _ _ _ _ => "binary-app"
  | .letIn _ _ _ => "let"
  | .letRec _ _ => "letrec"
  | .defs _ _ => "defs"
  | .matching _ _ _ => "match"

/-- Every node the explanation refers to, in the order of evaluation, with repetitions. -/
def dependencies : Explanation → List NodeId
  | .given => []
  | .lookup _ binding => [binding]
  | .application function argument members matched body =>
    [function, argument] ++ members.map Member.closure ++ matched ++ [body]
  | .unary function argument => [function, argument]
  | .binary function left _ right => [function, left, right]
  | .letIn _ bound body => [bound, body]
  | .letRec members body => members.map Member.closure ++ [body]
  | .defs definitions body =>
    definitions.flatMap DefinitionExplanation.dependencies ++ [body]
  | .matching scrutinee matched body => [scrutinee] ++ matched ++ [body]

end Explanation

namespace Member

protected def merge (left right : Member) : Except Conflict Member := do
  let name ← merge left.name right.name
  let closure ← merge left.closure right.closure
  pure ⟨name, closure⟩

instance : Merge Member := ⟨Member.merge⟩

end Member

namespace DefinitionExplanation

protected def merge : DefinitionExplanation → DefinitionExplanation →
    Except Conflict DefinitionExplanation
  | .value leftName leftBound, .value rightName rightBound => do
    let name ← merge leftName rightName
    let bound ← merge leftBound rightBound
    pure (.value name bound)
  | .primitive leftName leftNode, .primitive rightName rightNode => do
    let name ← merge leftName rightName
    let node ← merge leftNode rightNode
    pure (.primitive name node)
  | .group leftMembers, .group rightMembers => do
    let members ← merge leftMembers rightMembers
    pure (.group members)
  | _, _ => .error (.form "definition" "definition of another kind")

instance : Merge DefinitionExplanation := ⟨DefinitionExplanation.merge⟩

end DefinitionExplanation

namespace Explanation

protected def merge : Explanation → Explanation → Except Conflict Explanation
  | .given, .given => .ok .given
  | .lookup leftName leftBinding, .lookup rightName rightBinding => do
    let name ← merge leftName rightName
    let binding ← merge leftBinding rightBinding
    pure (.lookup name binding)
  | .application leftFunction leftArgument leftMembers leftMatched leftBody,
    .application rightFunction rightArgument rightMembers rightMatched rightBody => do
    let function ← merge leftFunction rightFunction
    let argument ← merge leftArgument rightArgument
    let members ← merge leftMembers rightMembers
    let matched ← merge leftMatched rightMatched
    let body ← merge leftBody rightBody
    pure (.application function argument members matched body)
  | .unary leftFunction leftArgument, .unary rightFunction rightArgument => do
    let function ← merge leftFunction rightFunction
    let argument ← merge leftArgument rightArgument
    pure (.unary function argument)
  | .binary leftFunction leftLeft leftOp leftRight,
    .binary rightFunction rightLeft rightOp rightRight => do
    let function ← merge leftFunction rightFunction
    let left ← merge leftLeft rightLeft
    let op ← merge leftOp rightOp
    let right ← merge leftRight rightRight
    pure (.binary function left op right)
  | .letIn leftName leftBound leftBody, .letIn rightName rightBound rightBody => do
    let name ← merge leftName rightName
    let bound ← merge leftBound rightBound
    let body ← merge leftBody rightBody
    pure (.letIn name bound body)
  | .letRec leftMembers leftBody, .letRec rightMembers rightBody => do
    let members ← merge leftMembers rightMembers
    let body ← merge leftBody rightBody
    pure (.letRec members body)
  | .defs leftDefinitions leftBody, .defs rightDefinitions rightBody => do
    let definitions ← merge leftDefinitions rightDefinitions
    let body ← merge leftBody rightBody
    pure (.defs definitions body)
  | .matching leftScrutinee leftMatched leftBody,
    .matching rightScrutinee rightMatched rightBody => do
    let scrutinee ← merge leftScrutinee rightScrutinee
    let matched ← merge leftMatched rightMatched
    let body ← merge leftBody rightBody
    pure (.matching scrutinee matched body)
  | left, right => .error (.form left.kind right.kind)

instance : Merge Explanation := ⟨Explanation.merge⟩

end Explanation

end Whence
