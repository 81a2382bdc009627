import Whence.Identifier
import Whence.Number
import Whence.Symbol
import Whence.Text.Quoted

/-!
# Expressions

An expression is kept as one layer whose parts are other expressions of the same program.
-/

namespace Whence

/-- One definition of a sequence; a later one sees the earlier ones. -/
inductive Definition where
  | value (name : Symbol) (bound : ExprId)
  /-- Binds `name` to the library primitive called `op`. -/
  | primitive (name op : Symbol)
  | group (group : GroupId)
  deriving DecidableEq, Repr

inductive Expr where
  | number (value : Number)
  | text (value : String)
  | var (name : Symbol)
  /-- An operator is looked up in the environment as a variable is. -/
  | op (name : Symbol)
  | constructor (tag : Symbol) (args : List ExprId)
  /-- The bodies of the function stand at the ends of the demand on its argument. -/
  | function (demand : DemandId)
  | app (function argument : ExprId)
  | letIn (name : Symbol) (bound body : ExprId)
  | letRec (group : GroupId) (body : ExprId)
  | matching (scrutinee : ExprId) (demand : DemandId)
  | defs (definitions : List Definition) (body : ExprId)
  deriving DecidableEq, Repr

instance : Inhabited Expr := ⟨.text ""⟩

namespace Expr

def kind : Expr → String
  | .number _ => "number"
  | .text _ => "string"
  | .var _ => "variable"
  | .op _ => "operator"
  | .constructor _ _ => "constructor"
  | .function _ => "function"
  | .app _ _ => "application"
  | .letIn _ _ _ => "let"
  | .letRec _ _ => "letrec"
  | .matching _ _ => "match"
  | .defs _ _ => "defs"

/-- How a literal is written in source text; other expressions are no literals. -/
def literal? : Expr → Option String
  | .number value => some value.plain
  | .text value => some (Text.Quoted.quote value)
  | _ => none

end Expr

/-- A function with the name by which the functions of its group call it. -/
structure GroupEntry where
  name : Symbol
  function : ExprId
  deriving DecidableEq, Repr

/-- Functions that may call each other. -/
structure Group where
  entries : List GroupEntry
  deriving DecidableEq, Repr, Inhabited

end Whence
