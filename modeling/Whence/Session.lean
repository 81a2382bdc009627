import Whence.Evaluation.Basic
import Whence.Slice.Basic
import Whence.View.Basic

/-!
# Sessions

A session joins a program, the machine that evaluates it and the marks of the current pass.  Asking
for a slice in the other direction starts a new pass.
-/

namespace Whence

structure Session where
  program : Program
  settings : Settings := {}
  machine : Machine := {}
  marks : Marks := {}
  /-- The environment in which expressions are evaluated if no other one is named. -/
  library : EnvId := .empty

/-- An operation of a session that may fail; what it did before failing stays done. -/
abbrev InSession := EStateM Error Session

namespace Session

def store (session : Session) : Store := session.machine.store

/-- A session with nothing in its store. -/
def bare (program : Program) (settings : Settings) : Session := { program, settings }

/-- Runs a part of an evaluation. -/
def run {α : Type} (evaluating : Evaluating α) : InSession α :=
  fun ⟨program, settings, machine, marks, library⟩ ↦
    match evaluating machine with
    | .ok result machine => .ok result ⟨program, settings, machine, marks, library⟩
    | .error error machine => .error error ⟨program, settings, machine, marks, library⟩

def openLibrary : InSession EnvId := do
  run (Evaluation.openLibrary (← get).program)

/-- A session whose library is bound. -/
def new (program : Program) (settings : Settings) : Except Error Session :=
  match openLibrary (bare program settings) with
  | .ok library session => .ok { session with library }
  | .error error _ => .error error

/-- Evaluates an expression as far as a demand asks. -/
def evaluateUnder (env : EnvId) (expr : ExprId) (demand : DemandId) : InSession Outcome := do
  let session ← get
  run (Evaluation.under session.program session.settings env expr demand)

/-- Evaluates an expression completely. -/
def evaluateIn (env : EnvId) (expr : ExprId) : InSession NodeId := do
  let session ← get
  run (Evaluation.evaluate session.program session.settings env expr)

def evaluate (expr : ExprId) : InSession NodeId := do
  evaluateIn (← get).library expr

/-- Runs an operation of the store. -/
def perform {α : Type} (operation : Storing α) : InSession α := run (Machine.perform operation)

/-- Changes the store. -/
def change {α : Type} (operation : Store → α × Store) : InSession α :=
  run (Machine.change operation)

def input (value : Value) : InSession NodeId := perform (Store.input value)

def update (node : NodeId) (value : Value) : InSession Unit := perform (Store.update node value)

def spawn : InSession Revision := change Store.spawn

/-- Extends an environment by a name of the program; other names cannot be bound. -/
def bind (env : EnvId) (name : String) (node : NodeId) : InSession (Option EnvId) := do
  match (← get).program.symbol? name with
  | none => pure none
  | some symbol => some <$> change fun store ↦ store.extend env symbol (.node node)

def setMarks (marks : Marks) : InSession Unit := modify fun session ↦ { session with marks }

def reset (direction : Direction) : InSession Unit := setMarks (.start direction)

/-- Starts a new pass unless one in this direction is under way. -/
def ensureDirection (direction : Direction) : InSession Unit := do
  if (← get).marks.direction = direction then pure () else reset direction

/-- Changes the marks. -/
def remark (operation : Marks → Store → Except Error Marks) : InSession Unit := do
  let session ← get
  match operation session.marks session.store with
  | .ok marks => setMarks marks
  | .error error => throw error

def sliceForward (roots : List Target) : InSession Unit := do
  ensureDirection .forward
  remark fun marks store ↦ Slice.forward marks store roots

def sliceBackward (roots : List Target) : InSession Unit := do
  ensureDirection .backward
  remark fun marks store ↦ Slice.backward marks store roots

def restrict (root : NodeId) : InSession Unit :=
  remark fun marks store ↦ .ok (Slice.restrict marks store root)

end Session

end Whence
