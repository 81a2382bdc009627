import Whence.Primitive
import Whence.Syntax.Demand
import Whence.Syntax.Expr

/-!
# Programs

A program holds its expressions, demands and recursive groups in the order in which they were made,
and only ever grows.  Equal demands are kept once, so that a demand is known by its number.  Names
are interned, and each declared constructor has an arity and belongs to a data type.
-/

namespace Whence

structure Constructor where
  tag : Symbol
  arity : Nat
  datatype : Symbol
  deriving DecidableEq, Repr

structure Program where
  exprs : Array Expr := #[]
  demands : Array Demand := #[]
  demandIds : Std.HashMap Demand DemandId := ∅
  groups : Array Group := #[]
  symbols : SymbolTable := .empty
  /-- In the order of their first declaration, one for each tag. -/
  constructors : List Constructor := []

namespace Symbol

/-! The constructors that evaluation itself makes or looks for come first in every program. -/

def trueTag : Symbol := ⟨0⟩
def falseTag : Symbol := ⟨1⟩
def nilTag : Symbol := ⟨2⟩
def consTag : Symbol := ⟨3⟩
def pairTag : Symbol := ⟨4⟩

def ofBool (value : Bool) : Symbol := if value then trueTag else falseTag

end Symbol

namespace Program

/-! An identifier that the program did not hand out denotes some fixed expression, demand or group. -/

def expr (program : Program) (id : ExprId) : Expr :=
  program.exprs[id.index]?.getD default

def demand (program : Program) (id : DemandId) : Demand :=
  program.demands[id.index]?.getD (.everything .done)

def group (program : Program) (id : GroupId) : Group :=
  program.groups[id.index]?.getD default

def symbol? (program : Program) (name : String) : Option Symbol := program.symbols.symbol? name

def name (program : Program) (symbol : Symbol) : String := program.symbols.name symbol

def constructor? (program : Program) (tag : Symbol) : Option Constructor :=
  program.constructors.find? fun constructor ↦ constructor.tag == tag

/-- The declared constructor with this name. -/
def constructorNamed? (program : Program) (name : String) : Option Constructor :=
  (program.symbol? name).bind program.constructor?

/-- A short account of a demand for messages. -/
def describe (program : Program) (id : DemandId) : String :=
  match program.demand id with
  | .constructor cases =>
    "constructor (" ++ " | ".intercalate (cases.map fun case ↦ program.name case.1) ++ ")"
  | demand => demand.kind

/-- The expressions with their identifiers. -/
def numberedExprs (program : Program) : List (ExprId × Expr) :=
  program.exprs.toList.zipIdx.map fun (expr, index) ↦ (⟨index⟩, expr)

def intern (program : Program) (name : String) : Symbol × Program :=
  let (symbol, symbols) := program.symbols.intern name
  (symbol, { program with symbols })

/-- Declaring a tag again changes its arity and data type and keeps its place. -/
def declare (program : Program) (tag : String) (arity : Nat) (datatype : String) : Program :=
  let (tag, program) := program.intern tag
  let (datatype, program) := program.intern datatype
  let constructor : Constructor := ⟨tag, arity, datatype⟩
  if (program.constructor? tag).isSome then
    { program with
      constructors := program.constructors.map fun present ↦
        if present.tag == tag then constructor else present }
  else
    { program with constructors := program.constructors ++ [constructor] }

def pushExpr (program : Program) (expr : Expr) : ExprId × Program :=
  (⟨program.exprs.size⟩, { program with exprs := program.exprs.push expr })

def pushGroup (program : Program) (group : Group) : GroupId × Program :=
  (⟨program.groups.size⟩, { program with groups := program.groups.push group })

def internDemand (program : Program) (demand : Demand) : DemandId × Program :=
  match program.demandIds[demand]? with
  | some id => (id, program)
  | none =>
    let id : DemandId := ⟨program.demands.size⟩
    (id, { program with
      demands := program.demands.push demand
      demandIds := program.demandIds.insert demand id })

def initialNames : List String :=
  ["True", "False", "Nil", "Cons", "Pair"] ++ Primitive.all.map Primitive.name

def initialDemands : List Demand :=
  [.everything .done, .function .done, .number .done, .text .done]

def initialConstructors : List (String × Nat × String) :=
  [("True", 0, "Bool"), ("False", 0, "Bool"), ("Nil", 0, "List"), ("Cons", 2, "List"),
   ("Pair", 2, "Pair"), ("None", 0, "Option"), ("Some", 1, "Option")]

def initial : Program :=
  let program : Program := { symbols := SymbolTable.empty.internAll initialNames }
  let program := initialDemands.foldl (fun program demand ↦ (program.internDemand demand).2) program
  initialConstructors.foldl
    (fun program (tag, arity, datatype) ↦ program.declare tag arity datatype) program

end Program

end Whence
