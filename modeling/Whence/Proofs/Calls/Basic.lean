import Whence.Proofs.Stopping
import Whence.Syntax.Builder

/-!
# Calls of the builder

A call of the builder adds names, demands, expressions and groups to the program, and keeps what it
has added if it fails.  It is given identifiers of expressions, and may return one.
-/

namespace Whence

variable {α β : Type}

namespace Builder

/-- A call of the builder.  The identifiers that it takes need not come from earlier calls. -/
inductive Call where
  | declare (tag : String) (arity : Nat) (datatype : String)
  | number (value : Number)
  | text (value : String)
  | var (name : String)
  | op (name : String)
  | constructor (tag : String) (args : List ExprId)
  | nil
  | cons (head tail : ExprId)
  | pair (first second : ExprId)
  | boolean (value : Bool)
  | list (items : List ExprId)
  | numbers (values : List Number)
  | app (function argument : ExprId)
  | apply (function : ExprId) (arguments : List ExprId)
  | binary (left : ExprId) (name : String) (right : ExprId)
  | lambda (name : String) (body : ExprId)
  | function (clauses : List Clause)
  | matching (scrutinee : ExprId) (clauses : List Clause)
  | ifThenElse (condition yes no : ExprId)
  | letIn (name : String) (bound body : ExprId)
  | group (entries : List (String × ExprId))
  | letRec (entries : List (String × ExprId)) (body : ExprId)
  | defineValue (name : String) (bound : ExprId)
  | definePrimitive (name op : String)
  | defineGroup (entries : List (String × ExprId))
  | defs (definitions : List Definition) (body : ExprId)

/-- What the call does to the program. -/
def Call.run : Call → Builder Unit
  | .declare tag arity datatype => Builder.declare tag arity datatype
  | .number value => discard (Builder.number value)
  | .text value => discard (Builder.text value)
  | .var name => discard (Builder.var name)
  | .op name => discard (Builder.op name)
  | .constructor tag args => discard (Builder.constructor tag args)
  | .nil => discard Builder.nil
  | .cons head tail => discard (Builder.cons head tail)
  | .pair first second => discard (Builder.pair first second)
  | .boolean value => discard (Builder.boolean value)
  | .list items => discard (Builder.list items)
  | .numbers values => discard (Builder.numbers values)
  | .app operator argument => discard (Builder.app operator argument)
  | .apply operator arguments => discard (Builder.apply operator arguments)
  | .binary left name right => discard (Builder.binary left name right)
  | .lambda name body => discard (Builder.lambda name body)
  | .function clauses => discard (Builder.function clauses)
  | .matching scrutinee clauses => discard (Builder.matching scrutinee clauses)
  | .ifThenElse condition yes no => discard (Builder.ifThenElse condition yes no)
  | .letIn name bound body => discard (Builder.letIn name bound body)
  | .group entries => discard (Builder.group entries)
  | .letRec entries body => discard (Builder.letRec entries body)
  | .defineValue name bound => discard (Builder.defineValue name bound)
  | .definePrimitive name primitive => discard (Builder.definePrimitive name primitive)
  | .defineGroup entries => discard (Builder.defineGroup entries)
  | .defs definitions body => discard (Builder.defs definitions body)

/-- What a call returns. -/
inductive Answer where
  | nothing
  | expr (id : ExprId)
  | group (id : GroupId)
  | definition (definition : Definition)

/-- The call together with what it returns. -/
def Call.answer : Call → Builder Answer
  | .declare tag arity datatype => (fun _ ↦ .nothing) <$> Builder.declare tag arity datatype
  | .number value => .expr <$> Builder.number value
  | .text value => .expr <$> Builder.text value
  | .var name => .expr <$> Builder.var name
  | .op name => .expr <$> Builder.op name
  | .constructor tag args => .expr <$> Builder.constructor tag args
  | .nil => .expr <$> Builder.nil
  | .cons head tail => .expr <$> Builder.cons head tail
  | .pair first second => .expr <$> Builder.pair first second
  | .boolean value => .expr <$> Builder.boolean value
  | .list items => .expr <$> Builder.list items
  | .numbers values => .expr <$> Builder.numbers values
  | .app operator argument => .expr <$> Builder.app operator argument
  | .apply operator arguments => .expr <$> Builder.apply operator arguments
  | .binary left name right => .expr <$> Builder.binary left name right
  | .lambda name body => .expr <$> Builder.lambda name body
  | .function clauses => .expr <$> Builder.function clauses
  | .matching scrutinee clauses => .expr <$> Builder.matching scrutinee clauses
  | .ifThenElse condition yes no => .expr <$> Builder.ifThenElse condition yes no
  | .letIn name bound body => .expr <$> Builder.letIn name bound body
  | .group entries => .group <$> Builder.group entries
  | .letRec entries body => .expr <$> Builder.letRec entries body
  | .defineValue name bound => .definition <$> Builder.defineValue name bound
  | .definePrimitive name primitive => .definition <$> Builder.definePrimitive name primitive
  | .defineGroup entries => .definition <$> Builder.defineGroup entries
  | .defs definitions body => .expr <$> Builder.defs definitions body

theorem discard_map (f : α → β) (step : Builder α) :
    Functor.discard (f <$> step) = Functor.discard step := by
  funext program
  change EStateM.map _ (EStateM.map f step) program = EStateM.map _ step program
  unfold EStateM.map
  cases step program <;> rfl

theorem Call.run_eq (call : Call) : call.run = Functor.discard call.answer := by
  cases call with
  | declare tag arity datatype => rfl
  | _ => exact (discard_map _ _).symm

end Builder

/-- The expression that a definition binds, if there is one. -/
def Definition.bound? : Definition → Option ExprId
  | .value _ bound => some bound
  | _ => none

/-- The expressions to which an expression refers by itself. -/
def Expr.parts : Expr → List ExprId
  | .constructor _ args => args
  | .app operator argument => [operator, argument]
  | .letIn _ bound body => [bound, body]
  | .letRec _ body => [body]
  | .matching scrutinee _ => [scrutinee]
  | .defs definitions body => definitions.filterMap Definition.bound? ++ [body]
  | _ => []

/-- The expressions that a call is given. -/
def Builder.Call.given : Call → List ExprId
  | .constructor _ args => args
  | .cons head tail => [head, tail]
  | .pair first second => [first, second]
  | .list items => items
  | .app operator argument => [operator, argument]
  | .apply operator arguments => operator :: arguments
  | .binary left _ right => [left, right]
  | .lambda _ body => [body]
  | .function clauses => clauses.map Clause.body
  | .matching scrutinee clauses => scrutinee :: clauses.map Clause.body
  | .ifThenElse condition yes no => [condition, yes, no]
  | .letIn _ bound body => [bound, body]
  | .group entries | .defineGroup entries => entries.map Prod.snd
  | .letRec entries body => entries.map Prod.snd ++ [body]
  | .defineValue _ bound => [bound]
  | .defs definitions body => definitions.filterMap Definition.bound? ++ [body]
  | _ => []

end Whence
