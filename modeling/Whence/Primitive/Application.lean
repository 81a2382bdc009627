import Whence.Error
import Whence.Syntax.Program
import Whence.Value

/-!
# Applying primitives

A primitive looks at the values of its operands and at nothing else.  Operands are checked from
left to right.  Comparisons answer with the constructors of truth; numbers are compared as doubles
and texts by code points.
-/

namespace Whence

namespace Value

def ofBool (value : Bool) : Value := .constructor (.ofBool value) []

def expectNumber (op : String) (value : Value) : Except Error Float :=
  match value.number? with
  | some found => .ok found.toFloat
  | none => .error (.primitiveType op .number value.kind)

def expectText (op : String) (value : Value) : Except Error String :=
  match value.text? with
  | some found => .ok found
  | none => .error (.primitiveType op .text value.kind)

end Value

namespace UnaryOp

def applyNumber (op : UnaryOp) (compute : Float → Value) (argument : Value) : Except Error Value :=
  compute <$> argument.expectNumber op.name

def apply (op : UnaryOp) (argument : Value) : Except Error Value :=
  match op with
  | .ceiling => op.applyNumber (fun value ↦ .number (.ofFloat value.ceil)) argument
  | .floor => op.applyNumber (fun value ↦ .number (.ofFloat value.floor)) argument
  | .log => op.applyNumber (fun value ↦ .number (.ofFloat value.log)) argument
  | .intToString => op.applyNumber (fun value ↦ .text (Number.ofFloat value).plain) argument
  | .error => do
    let message ← argument.expectText op.name
    throw (.userError message)

end UnaryOp

namespace BinaryOp

def onTexts (op : BinaryOp) (left right : String) : Value :=
  match op with
  | .concat => .text (left ++ right)
  | .strEq => .ofBool (left == right)
  | .strLt => .ofBool (left < right)
  | .strLe => .ofBool (left ≤ right)
  | .strGt => .ofBool (right < left)
  | _ => .ofBool (right ≤ left)

def onNumbers (op : BinaryOp) (left right : Float) : Value :=
  match op with
  | .add => .number (.ofFloat (left + right))
  | .sub => .number (.ofFloat (left - right))
  | .mul => .number (.ofFloat (left * right))
  | .div => .number (.ofFloat (left / right))
  | .pow => .number (.ofFloat (left.pow right))
  | .numEq => .ofBool (left == right)
  | .numLt => .ofBool (left < right)
  | .numLe => .ofBool (left ≤ right)
  | .numGt => .ofBool (right < left)
  | _ => .ofBool (right ≤ left)

def apply (op : BinaryOp) (left right : Value) : Except Error Value :=
  match op.operand with
  | .text => do
    let leftText ← left.expectText op.name
    let rightText ← right.expectText op.name
    pure (op.onTexts leftText rightText)
  | .number => do
    let leftNumber ← left.expectNumber op.name
    let rightNumber ← right.expectNumber op.name
    pure (op.onNumbers leftNumber rightNumber)

end BinaryOp

namespace Operand

/-- The demand that evaluates an operand. -/
def demand : Operand → DemandId
  | .number => .number
  | .text => .text

end Operand

end Whence
