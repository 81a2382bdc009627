/-!
# Primitives

The library has five unary and sixteen binary primitives.  A binary primitive takes its operands
one at a time.  Each primitive asks the same kind of value of all its operands.
-/

namespace Whence

/-- The kind of value that a primitive asks of its operands. -/
inductive Operand where
  | number
  | text
  deriving DecidableEq, Repr

inductive UnaryOp where
  | ceiling
  | floor
  | log
  | intToString
  | error
  deriving DecidableEq, Hashable, Repr

inductive BinaryOp where
  | add
  | sub
  | mul
  | div
  | pow
  | numEq
  | numLt
  | numLe
  | numGt
  | numGe
  | strEq
  | strLt
  | strLe
  | strGt
  | strGe
  | concat
  deriving DecidableEq, Hashable, Repr

inductive Primitive where
  | unary (op : UnaryOp)
  | binary (op : BinaryOp)
  deriving DecidableEq, Hashable, Repr

namespace Operand

/-- How an operand of this kind is announced in a complaint about another one. -/
def expected : Operand → String
  | .number => "a number"
  | .text => "a string"

end Operand

namespace UnaryOp

def all : List UnaryOp := [.ceiling, .floor, .log, .intToString, .error]

/-- The name under which programs refer to the primitive. -/
def name : UnaryOp → String
  | .ceiling => "ceiling"
  | .floor => "floor"
  | .log => "log"
  | .intToString => "intToString"
  | .error => "error"

/-- The word for the primitive in reports of a conflict. -/
def report : UnaryOp → String
  | .ceiling => "Ceiling"
  | .floor => "Floor"
  | .log => "Log"
  | .intToString => "IntToString"
  | .error => "Error"

def operand : UnaryOp → Operand
  | .error => .text
  | _ => .number

end UnaryOp

namespace BinaryOp

def all : List BinaryOp :=
  [.add, .sub, .mul, .div, .pow, .numEq, .numLt, .numLe, .numGt, .numGe,
   .strEq, .strLt, .strLe, .strGt, .strGe, .concat]

/-- The name under which programs refer to the primitive. -/
def name : BinaryOp → String
  | .add => "+"
  | .sub => "-"
  | .mul => "*"
  | .div => "/"
  | .pow => "**"
  | .numEq => "=="
  | .numLt => "<"
  | .numLe => "<="
  | .numGt => ">"
  | .numGe => ">="
  | .strEq => "==="
  | .strLt => "<<"
  | .strLe => "<=="
  | .strGt => ">>"
  | .strGe => ">=="
  | .concat => "++"

/-- The word for the primitive in reports of a conflict. -/
def report : BinaryOp → String
  | .add => "Add"
  | .sub => "Sub"
  | .mul => "Mul"
  | .div => "Div"
  | .pow => "Pow"
  | .numEq => "NumEq"
  | .numLt => "NumLt"
  | .numLe => "NumLe"
  | .numGt => "NumGt"
  | .numGe => "NumGe"
  | .strEq => "StrEq"
  | .strLt => "StrLt"
  | .strLe => "StrLe"
  | .strGt => "StrGt"
  | .strGe => "StrGe"
  | .concat => "Concat"

def operand : BinaryOp → Operand
  | .strEq | .strLt | .strLe | .strGt | .strGe | .concat => .text
  | _ => .number

end BinaryOp

namespace Primitive

/-- The library, in the order in which its names are bound. -/
def all : List Primitive := UnaryOp.all.map .unary ++ BinaryOp.all.map .binary

def name : Primitive → String
  | .unary op => op.name
  | .binary op => op.name

def ofName? (name : String) : Option Primitive :=
  all.find? fun primitive ↦ primitive.name == name

end Primitive

end Whence
