import Whence.Syntax.Pattern

/-!
# Building programs

Each operation adds expressions to the program, parts before wholes, and returns the outermost one.
-/

namespace Whence.Builder

def declare (tag : String) (arity : Nat) (datatype : String) : Builder Unit :=
  modify fun program ↦ program.declare tag arity datatype

def number (value : Number) : Builder ExprId := pushExpr (.number value)

def text (value : String) : Builder ExprId := pushExpr (.text value)

def var (name : String) : Builder ExprId := do
  let symbol ← intern name
  pushExpr (.var symbol)

def op (name : String) : Builder ExprId := do
  let symbol ← intern name
  pushExpr (.op symbol)

def constructor (tag : String) (args : List ExprId) : Builder ExprId := do
  let constructor ← constructorOf tag args.length
  pushExpr (.constructor constructor.tag args)

def nil : Builder ExprId := pushExpr (.constructor .nilTag [])

def cons (head tail : ExprId) : Builder ExprId := pushExpr (.constructor .consTag [head, tail])

def pair (first second : ExprId) : Builder ExprId :=
  pushExpr (.constructor .pairTag [first, second])

def boolean (value : Bool) : Builder ExprId := pushExpr (.constructor (.ofBool value) [])

/-- The cells of a list are made from its end to its beginning. -/
def list (items : List ExprId) : Builder ExprId := do
  let tail ← nil
  items.reverse.foldlM (fun tail head ↦ cons head tail) tail

def numbers (values : List Number) : Builder ExprId := do
  let items ← values.mapM number
  list items

def app (function argument : ExprId) : Builder ExprId := pushExpr (.app function argument)

/-- Application to several arguments, one after the other. -/
def apply (function : ExprId) (arguments : List ExprId) : Builder ExprId :=
  arguments.foldlM app function

def binary (left : ExprId) (name : String) (right : ExprId) : Builder ExprId := do
  let function ← op name
  let partially ← app function left
  app partially right

def lambda (name : String) (body : ExprId) : Builder ExprId := do
  let symbol ← intern name
  let demand ← internDemand (.bind symbol (.body body))
  pushExpr (.function demand)

def function (clauses : List Clause) : Builder ExprId := do
  let demand ← Clause.compileAll clauses
  pushExpr (.function demand)

def matching (scrutinee : ExprId) (clauses : List Clause) : Builder ExprId := do
  let demand ← Clause.compileAll clauses
  pushExpr (.matching scrutinee demand)

def ifThenElse (condition yes no : ExprId) : Builder ExprId := do
  let demand ← internDemand (.constructor [(.trueTag, .body yes), (.falseTag, .body no)])
  pushExpr (.matching condition demand)

def letIn (name : String) (bound body : ExprId) : Builder ExprId := do
  let symbol ← intern name
  pushExpr (.letIn symbol bound body)

def group (entries : List (String × ExprId)) : Builder GroupId := do
  let entries ← entries.mapM fun (name, function) ↦ do
    let symbol ← intern name
    pure (GroupEntry.mk symbol function)
  pushGroup ⟨entries⟩

def letRec (entries : List (String × ExprId)) (body : ExprId) : Builder ExprId := do
  let group ← group entries
  pushExpr (.letRec group body)

def defineValue (name : String) (bound : ExprId) : Builder Definition := do
  let symbol ← intern name
  pure (.value symbol bound)

def definePrimitive (name op : String) : Builder Definition := do
  let symbol ← intern name
  let op ← intern op
  pure (.primitive symbol op)

def defineGroup (entries : List (String × ExprId)) : Builder Definition := do
  let group ← group entries
  pure (.group group)

def defs (definitions : List Definition) (body : ExprId) : Builder ExprId :=
  pushExpr (.defs definitions body)

/-- The outcome of a step and the program after it. -/
def outcome {α : Type} (step : Builder α) (program : Program) : Except Error α × Program :=
  match step.run program with
  | .ok result program => (.ok result, program)
  | .error error program => (.error error, program)

end Whence.Builder
