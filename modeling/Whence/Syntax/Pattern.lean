import Whence.Error
import Whence.Syntax.Program

/-!
# Patterns and clauses

A pattern compiles to a demand whose arguments are chained: what follows the demand on one argument
is the demand on the next one, and what follows the last is the body of the clause.  The demands of
several clauses are joined into one, case by case.  Demands that were interned before a failure
stay in the program.
-/

namespace Whence

inductive Pattern where
  | bind (name : String)
  /-- Binds the value to `_`. -/
  | wild
  | number
  | text
  | function
  | constructor (tag : String) (args : List Pattern)
  deriving Repr

/-- A pattern and the body that it selects. -/
structure Clause where
  pattern : Pattern
  body : ExprId

/-- Programs are built step by step; a step that fails keeps what it had already added. -/
abbrev Builder := EStateM Error Program

namespace Builder

def intern (name : String) : Builder Symbol :=
  modifyGet fun program ↦ program.intern name

def pushExpr (expr : Expr) : Builder ExprId :=
  modifyGet fun program ↦ program.pushExpr expr

def pushGroup (group : Group) : Builder GroupId :=
  modifyGet fun program ↦ program.pushGroup group

def internDemand (demand : Demand) : Builder DemandId :=
  modifyGet fun program ↦ program.internDemand demand

/-- The declared constructor `tag`, which must take `count` arguments. -/
def constructorOf (tag : String) (count : Nat) : Builder Constructor := do
  let program ← get
  match program.constructorNamed? tag with
  | none => throw (.unknownConstructor tag)
  | some constructor =>
    if constructor.arity = count then pure constructor
    else throw (.arityMismatch tag constructor.arity count)

end Builder

namespace Pattern

open Builder

mutual

/-- The demand for a pattern that is followed by `next`. -/
def compile : Pattern → Next → Builder DemandId
  | .bind name, next => do
    let symbol ← intern name
    internDemand (.bind symbol next)
  | .wild, next => do
    let symbol ← intern "_"
    internDemand (.bind symbol next)
  | .number, next => internDemand (.number next)
  | .text, next => internDemand (.text next)
  | .function, next => internDemand (.function next)
  | .constructor tag args, next => do
    let constructor ← constructorOf tag args.length
    let first ← compileArgs args next
    internDemand (.constructor [(constructor.tag, first)])

/-- The last argument is compiled first, because each demand refers to the one that follows it. -/
def compileArgs : List Pattern → Next → Builder Next
  | [], next => pure next
  | arg :: args, next => do
    let following ← compileArgs args next
    let demand ← compile arg following
    pure (.demand demand)

end

end Pattern

namespace Demand

open Builder

/-- Two clauses that have come to an end accept the same values. -/
def joinNext (joinDemands : DemandId → DemandId → Builder DemandId) : Next → Next → Builder Next
  | .demand left, .demand right => do
    let joined ← joinDemands left right
    pure (.demand joined)
  | _, _ => throw (.overlappingClauses .sameValues)

/-- Cases for a tag that is already present are joined in its place; the others go to the end. -/
def joinCases (join : Next → Next → Builder Next) :
    List (Symbol × Next) → List (Symbol × Next) → Builder (List (Symbol × Next))
  | cases, [] => pure cases
  | cases, (tag, next) :: others =>
    match cases.lookup tag with
    | none => joinCases join (cases ++ [(tag, next)]) others
    | some present => do
      let joined ← join present next
      joinCases join (cases.map fun case ↦ if case.1 == tag then (tag, joined) else case) others

/-- Joins one layer of two demands. -/
def joinLayer (join : Next → Next → Builder Next) : Demand → Demand → Builder Demand
  | .constructor cases, .constructor others => .constructor <$> joinCases join cases others
  | .bind name next, .bind other otherNext =>
    if name = other then .bind name <$> join next otherNext
    else throw (.overlappingClauses (.kinds "variable" "variable"))
  | .number next, .number other => .number <$> join next other
  | .text next, .text other => .text <$> join next other
  | .function next, .function other => .function <$> join next other
  | .everything next, .everything other => .everything <$> join next other
  | left, right => throw (.overlappingClauses (.kinds left.kind right.kind))

/-- Joins two demands to a depth of `layers`. -/
def joinLayers : Nat → DemandId → DemandId → Builder DemandId
  | 0, _, _ => throw (.overlappingClauses .sameValues)
  | layers + 1, left, right =>
    if left = right then pure left
    else do
      let program ← get
      let joined ←
        joinLayer (joinNext (joinLayers layers)) (program.demand left) (program.demand right)
      internDemand joined

/-- A demand refers only to demands made before it, so its number bounds its depth. -/
def join (left right : DemandId) : Builder DemandId :=
  joinLayers (left.index + 1) left right

end Demand

namespace Clause

/-- The demand for one clause. -/
def compile (clause : Clause) : Builder DemandId :=
  clause.pattern.compile (.body clause.body)

/-- The demand for several clauses: each is compiled and joined to those before it. -/
def compileAll : List Clause → Builder DemandId
  | [] => throw (.overlappingClauses .noClauses)
  | clause :: clauses => do
    let first ← clause.compile
    clauses.foldlM (fun joined clause ↦ do Demand.join joined (← clause.compile)) first

end Clause

end Whence
