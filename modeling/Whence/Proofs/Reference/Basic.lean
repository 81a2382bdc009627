import Whence.Evaluation.Rules

/-!
# The plain lazy language

A call-by-name interpreter without a store.  An environment maps names to delayed expressions, which
are evaluated anew wherever they are demanded; values contain their parts instead of pointing to
nodes.  The rules are those of the evaluator: what is bound, passed under a variable or given to
a constructor stays delayed, an operator is evaluated as far as it takes to see a function, operands
of primitives as far as the primitive asks, and recursive groups are closed when they are looked up.
A rule says what is to be done as a plan, which may ask for values.  Carrying out plans within a number
of nested questions approximates the interpreter: it comes to what it comes to within enough of them,
and an evaluation that comes to no end has no result.
-/

namespace Whence.Reference

mutual

/-- A value that may not have been computed yet. -/
inductive Thunk where
  | delayed (context : List (Symbol × Meaning)) (expr : ExprId)
  | given (datum : Datum)

/-- What a name stands for. -/
inductive Meaning where
  | thunk (value : Thunk)
  /-- The entry at `position` of a recursive group, with the environment around the group. -/
  | recursive (context : List (Symbol × Meaning)) (group : GroupId) (position : Nat)

/-- A value in its outermost form. -/
inductive Datum where
  | number (value : Number)
  | text (value : String)
  | closure (context : List (Symbol × Meaning)) (function : ExprId)
  | primitive (op : Primitive)
  /-- A binary primitive that has its first operand. -/
  | partially (op : BinaryOp) (first : Datum)
  | constructor (tag : Symbol) (args : List Thunk)

end

/-- The names in scope, innermost first. -/
abbrev Context := List (Symbol × Meaning)

instance : Inhabited Datum := ⟨.text ""⟩

/-- What an evaluation under a demand comes to. -/
structure Result where
  /-- The value as far as it was demanded. -/
  value : Thunk
  /-- What the demand has bound. -/
  bound : Context
  /-- What follows the demand. -/
  next : Next

/-- A computation of the interpreter: nothing if it comes to no end. -/
abbrev Computation := ExceptT Error Option

namespace Datum

/-- The outermost form of a value, as messages and primitives see it. -/
def form : Datum → Value
  | .number value => .number value
  | .text value => .text value
  | .closure _ function => .closure ⟨.empty, function, none⟩
  | .primitive op => .primitive op.value
  | .partially op _ => .primitive (.partially op ⟨0⟩)
  | .constructor tag _ => .constructor tag []

/-- A value that a primitive has computed; truth values have no parts. -/
def ofForm : Value → Datum
  | .number value => .number value
  | .text value => .text value
  | .constructor tag _ => .constructor tag []
  | .closure _ | .primitive _ => default

/-- What a primitive asks of its next operand. -/
def operand? : Datum → Option Operand
  | .primitive op => some op.value.operand
  | .partially op _ => some op.operand
  | _ => none

end Datum

/-- The context with a recursive meaning for each entry of the group. -/
def closeGroup (program : Program) (context : Context) (group : GroupId) : Context :=
  ((program.group group).entries.zipIdx.map fun (entry, position) ↦
    (entry.name, Meaning.recursive context group position)).reverse ++ context

/-- The context after a sequence of definitions. -/
def define (program : Program) (context : Context) : List Definition → Except Error Context
  | [] => .ok context
  | .value name bound :: rest =>
    define program ((name, .thunk (.delayed context bound)) :: context) rest
  | .primitive name op :: rest =>
    match Primitive.ofName? (program.name op) with
    | none => .error (.nameNotFound (program.name op))
    | some primitive =>
      define program ((name, .thunk (.given (.primitive primitive))) :: context) rest
  | .group group :: rest => define program (closeGroup program context group) rest

/-- The body that a match has selected. -/
def bodyOf (program : Program) (next : Next) (demand : DemandId) : Except Error ExprId :=
  match next with
  | .body body => .ok body
  | _ => .error (.demandMismatch (program.describe demand) "a pattern without a body")

def mismatch (program : Program) (demand : DemandId) (datum : Datum) : Error :=
  .demandMismatch (program.describe demand) (datum.form.describe program.symbols)

/-- What a primitive makes of an operand, which has been computed. -/
def applyPrimitive (function : Datum) : Thunk → Except Error Datum
  | .given operand =>
    match function with
    | .primitive (.unary op) => Datum.ofForm <$> op.apply operand.form
    | .primitive (.binary op) => .ok (.partially op operand)
    | .partially op first => Datum.ofForm <$> op.apply first.form operand.form
    | _ => .ok operand
  | .delayed _ _ => .error (.demandMismatch "value" "nothing")

/-- What is to be done: an answer is known, or depends on what a thunk comes to under a demand. -/
inductive Plan (α : Type) where
  | answer (result : Except Error α)
  | ask (thunk : Thunk) (demand : DemandId) (rest : Result → Plan α)

namespace Plan

variable {α β : Type}

def bind : Plan α → (α → Plan β) → Plan β
  | .answer (.ok result), next => next result
  | .answer (.error error), _ => .answer (.error error)
  | .ask thunk demand rest, next => .ask thunk demand fun result ↦ (rest result).bind next

instance : Monad Plan where
  pure result := .answer (.ok result)
  bind := bind

def fail (error : Error) : Plan α := .answer (.error error)

/-- Asks for the value of a thunk. -/
def force (thunk : Thunk) (demand : DemandId) : Plan Result := .ask thunk demand pure

/-- Asks for the value of an expression. -/
def eval (context : Context) (expr : ExprId) (demand : DemandId) : Plan Result :=
  force (.delayed context expr) demand

/-- Carries out a plan, given what thunks come to. -/
def run (force : Thunk → DemandId → Computation Result) : Plan α → Computation α
  | .answer result => ExceptT.mk (some result)
  | .ask thunk demand rest => do
    let result ← force thunk demand
    (rest result).run force

variable (program : Program)

/-- Computes all parts of a value, from left to right. -/
def forceAll : List Thunk → Plan (List Thunk)
  | [] => pure []
  | arg :: args => do
    let forced ← force arg .everything
    let rest ← forceAll args
    pure (forced.value :: rest)

/-- Matches constructor arguments from left to right, each against the demand that follows the one
before it. -/
def matchArgs (count : Nat) (bound : Context) (next : Next) : List Thunk → Plan (Context × Next)
  | [] => pure (bound, next)
  | arg :: args =>
    match next with
    | .demand demand => do
      let matched ← force arg demand
      matchArgs count (matched.bound ++ bound) matched.next args
    | _ => fail (.demandMismatch (toString count ++ " argument(s)") "a pattern that stops early")

/-- Takes a value apart as the demand says. -/
def matchDatum (datum : Datum) (demand : DemandId) : Plan Result :=
  match program.demand demand, datum with
  | .everything next, .constructor tag args => do
    let forced ← forceAll args
    pure ⟨.given (.constructor tag forced), [], next⟩
  | .everything next, datum => pure ⟨.given datum, [], next⟩
  | .number next, .number value => pure ⟨.given (.number value), [], next⟩
  | .text next, .text value => pure ⟨.given (.text value), [], next⟩
  | .function next, .closure context function =>
    pure ⟨.given (.closure context function), [], next⟩
  | .function next, .primitive op => pure ⟨.given (.primitive op), [], next⟩
  | .function next, .partially op first => pure ⟨.given (.partially op first), [], next⟩
  | .constructor cases, .constructor tag args =>
    match cases.lookup tag with
    | some next => do
      let (bound, next) ← matchArgs args.length [] next args
      pure ⟨.given (.constructor tag args), bound, next⟩
    | none => fail (mismatch program demand datum)
  | _, datum => fail (mismatch program demand datum)

/-- Looks a name up and matches what it stands for. -/
def lookup (context : Context) (name : Symbol) (demand : DemandId) : Plan Result :=
  match context.lookup name with
  | none => fail (.nameNotFound (program.name name))
  | some (.thunk thunk) => force thunk demand
  | some (.recursive outer group position) =>
    match (program.group group).entries[position]? with
    | some entry =>
      matchDatum program (.closure (closeGroup program outer group) entry.function) demand
    | none => fail (.nameNotFound (program.name name))

/-- Applies a function, which has been computed, to an argument, which has not. -/
def apply (context : Context) (argument : ExprId) (demand : DemandId) : Thunk → Plan Result
  | .given (.closure inner literal) =>
    match program.expr literal with
    | .function parameter => do
      let matched ← eval context argument parameter
      let body ← answer (bodyOf program matched.next parameter)
      eval (matched.bound ++ inner) body demand
    | other => fail (.demandMismatch "function" other.kind)
  | .given function =>
    match function.operand? with
    | some kind => do
      let operand ← eval context argument kind.demand
      let result ← answer (applyPrimitive function operand.value)
      matchDatum program result demand
    | none => fail (.demandMismatch "function" (function.form.describe program.symbols))
  | .delayed _ _ => fail (.demandMismatch "function" "nothing")

/-- Evaluates by the rule for the form of the expression. -/
def byForm (context : Context) (expr : ExprId) (form : Expr) (demand : DemandId) : Plan Result :=
  match form with
  | .number value => matchDatum program (.number value) demand
  | .text value => matchDatum program (.text value) demand
  | .constructor tag args =>
    match program.constructor? tag with
    | none => fail (.unknownConstructor (program.name tag))
    | some constructor =>
      if constructor.arity = args.length then
        matchDatum program (.constructor tag (args.map (Thunk.delayed context))) demand
      else fail (.arityMismatch (program.name tag) constructor.arity args.length)
  | .function _ => matchDatum program (.closure context expr) demand
  | .var name | .op name => lookup program context name demand
  | .app function argument => do
    let applied ← eval context function .function
    apply program context argument demand applied.value
  | .letIn name bound body =>
    eval ((name, .thunk (.delayed context bound)) :: context) body demand
  | .letRec group body => eval (closeGroup program context group) body demand
  | .matching scrutinee cases => do
    let matched ← eval context scrutinee cases
    let body ← answer (bodyOf program matched.next cases)
    eval (matched.bound ++ context) body demand
  | .defs definitions body => do
    let inner ← answer (define program context definitions)
    eval inner body demand

/-- Matches a value that may still be delayed. -/
def matchThunk (thunk : Thunk) (demand : DemandId) : Plan Result :=
  match program.demand demand with
  | .bind name next => pure ⟨thunk, [(name, .thunk thunk)], next⟩
  | _ =>
    match thunk with
    | .delayed context expr => byForm program context expr (program.expr expr) demand
    | .given datum => matchDatum program datum demand

end Plan

/-! ## The interpreter -/

variable (program : Program)

/-- What a thunk comes to if questions are nested no deeper than `depth`. -/
def matchWithin : (depth : Nat) → Thunk → DemandId → Computation Result
  | 0, _, _ => ExceptT.mk none
  | depth + 1, thunk, demand => (Plan.matchThunk program thunk demand).run (matchWithin depth)

open Classical in
/-- What a thunk comes to under a demand, within however many questions. -/
noncomputable def matchThunk (thunk : Thunk) (demand : DemandId) : Computation Result :=
  if hends : ∃ depth, (matchWithin program depth thunk demand).run.isSome then
    matchWithin program hends.choose thunk demand
  else ExceptT.mk none

/-- Evaluates an expression as far as the demand asks. -/
noncomputable def eval (context : Context) (expr : ExprId) (demand : DemandId) : Computation Result :=
  matchThunk program (.delayed context expr) demand

/-- Evaluates by the rule for the form of the expression. -/
noncomputable def byForm (context : Context) (expr : ExprId) (form : Expr) (demand : DemandId) :
    Computation Result :=
  (Plan.byForm program context expr form demand).run (matchThunk program)

/-- Takes a value apart as the demand says. -/
noncomputable def matchDatum (datum : Datum) (demand : DemandId) : Computation Result :=
  (Plan.matchDatum program datum demand).run (matchThunk program)

/-- Matches constructor arguments from left to right. -/
noncomputable def matchArgs (count : Nat) (bound : Context) (next : Next) (args : List Thunk) :
    Computation (Context × Next) :=
  (Plan.matchArgs count bound next args).run (matchThunk program)

/-- Computes all parts of a value, from left to right. -/
noncomputable def forceAll (args : List Thunk) : Computation (List Thunk) :=
  (Plan.forceAll args).run (matchThunk program)

end Whence.Reference
