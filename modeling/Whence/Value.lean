import Whence.Merge.Basic

/-!
# Values

A value is known to its outermost form.  Its parts are nodes, so that each part has an explanation
of its own and may still be unevaluated.
-/

namespace Whence

/-- A function together with the environment in which its bodies are evaluated. -/
structure Closure where
  env : EnvId
  /-- The function literal. -/
  function : ExprId
  /-- The recursive group from which the closure was made, if any. -/
  scope : Option Scope
  deriving DecidableEq, Repr

/-- A primitive as a value. -/
inductive PrimitiveValue where
  | unary (op : UnaryOp)
  | binary (op : BinaryOp)
  /-- A binary primitive that has its first operand. -/
  | partially (op : BinaryOp) (first : NodeId)
  deriving DecidableEq, Repr

inductive Value where
  | number (value : Number)
  | text (value : String)
  | closure (value : Closure)
  | primitive (value : PrimitiveValue)
  | constructor (tag : Symbol) (args : List NodeId)
  deriving DecidableEq, Repr

namespace PrimitiveValue

def name : PrimitiveValue → String
  | .unary op => op.name
  | .binary op => op.name
  | .partially op _ => op.name

def operand : PrimitiveValue → Operand
  | .unary op => op.operand
  | .binary op => op.operand
  | .partially op _ => op.operand

end PrimitiveValue

namespace Primitive

def value : Primitive → PrimitiveValue
  | .unary op => .unary op
  | .binary op => .binary op

end Primitive

namespace Value

def kind : Value → String
  | .number _ => "number"
  | .text _ => "string"
  | .closure _ => "closure"
  | .primitive _ => "primitive"
  | .constructor _ _ => "constructor"

/-- A short account of a value for messages. -/
def describe (symbols : SymbolTable) : Value → String
  | .number value => "number " ++ value.plain
  | .text value => "string " ++ Text.Quoted.quote value
  | .closure _ => "closure"
  | .primitive value => "primitive `" ++ value.name ++ "`"
  | .constructor tag _ => "constructor " ++ symbols.name tag

/-- The nodes of which the value is made. -/
def children : Value → List NodeId
  | .constructor _ args => args
  | .primitive (.partially _ first) => [first]
  | _ => []

def number? : Value → Option Number
  | .number value => some value
  | _ => none

def text? : Value → Option String
  | .text value => some value
  | _ => none

def isFunction : Value → Bool
  | .closure _ | .primitive _ => true
  | _ => false

/-- The value with its number, if it is one, brought to its representative. -/
def canonical : Value → Value
  | .number value => .number value.canonical
  | value => value

end Value

namespace Closure

protected def merge (left right : Closure) : Except Conflict Closure := do
  let env ← merge left.env right.env
  let function ← merge left.function right.function
  let scope ← merge left.scope right.scope
  pure ⟨env, function, scope⟩

instance : Merge Closure := ⟨Closure.merge⟩

end Closure

namespace PrimitiveValue

protected def merge : PrimitiveValue → PrimitiveValue → Except Conflict PrimitiveValue
  | .unary left, .unary right => do
    let op ← merge left right
    pure (.unary op)
  | .binary left, .binary right => do
    let op ← merge left right
    pure (.binary op)
  | .partially left leftFirst, .partially right rightFirst => do
    let op ← merge left right
    let first ← merge leftFirst rightFirst
    pure (.partially op first)
  | left, right => .error (.form left.name right.name)

instance : Merge PrimitiveValue := ⟨PrimitiveValue.merge⟩

end PrimitiveValue

namespace Value

protected def merge : Value → Value → Except Conflict Value
  | .number left, .number right => do
    let value ← merge left right
    pure (.number value)
  | .text left, .text right => do
    let value ← merge left right
    pure (.text value)
  | .closure left, .closure right => do
    let value ← merge left right
    pure (.closure value)
  | .primitive left, .primitive right => do
    let value ← merge left right
    pure (.primitive value)
  | .constructor leftTag leftArgs, .constructor rightTag rightArgs => do
    let tag ← merge leftTag rightTag
    let args ← merge leftArgs rightArgs
    pure (.constructor tag args)
  | left, right => .error (.form left.kind right.kind)

instance : Merge Value := ⟨Value.merge⟩

end Value

end Whence
