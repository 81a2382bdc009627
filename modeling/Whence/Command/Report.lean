import Whence.Command.Disk
import Whence.Command.Invocation
import Whence.Gallery.Basic
import Whence.Session
import Whence.View.Snapshot
import Whence.View.Trace

/-!
# What commands report

Each command works on the examples of the gallery and answers with text, or fails with a cause.
-/

namespace Whence.Command

/-- What a command leaves behind. -/
structure Report where
  exitCode : Nat := 0
  output : String := ""
  diagnostics : String := ""
  deriving DecidableEq, Repr

inductive Failure where
  | unknownExample (name : String)
  | building (name : String) (error : Error)
  | evaluating (name : String) (error : Error)
  | session (error : Error)
  | absentLiteral (sample literal : String)
  | unreadable (path : String) (refusal : Refusal)
  | malformed (path : String)

namespace Failure

def message : Failure → String
  | .unknownExample name => "no example named `" ++ name ++ "` (try `sliver list`)"
  | .building name error => "building " ++ name ++ ": " ++ error.message
  | .evaluating name error => "evaluating " ++ name ++ ": " ++ error.message
  | .session error => error.message
  | .absentLiteral sample literal => sample ++ " has no literal " ++ literal
  | .unreadable path refusal => "reading " ++ path ++ ": " ++ refusal.message
  | .malformed path => "parsing " ++ path ++ ": these are not settings"

def report (failure : Failure) : Report :=
  { exitCode := 1, diagnostics := "error: " ++ failure.message ++ "\n" }

end Failure

def textOfLines (lines : List String) : String := String.join (lines.map (· ++ "\n"))

/-- An example whose program is built. -/
structure Exhibit where
  sample : Example
  program : Program
  root : ExprId

namespace Exhibit

def ofExample (sample : Example) : Except Failure Exhibit :=
  match sample.load with
  | .ok (program, root) => .ok ⟨sample, program, root⟩
  | .error error => .error (.building sample.name error)

def named (name : String) : Except Failure Exhibit :=
  match Gallery.find? name with
  | some sample => ofExample sample
  | none => .error (.unknownExample name)

/-- Evaluates the example completely in a session of its own. -/
def evaluate (exhibit : Exhibit) (settings : Settings) : Except Error (NodeId × Session) := do
  let session ← Session.new exhibit.program settings
  match Session.evaluate exhibit.root session with
  | .ok node session => .ok (node, session)
  | .error error _ => .error error

def view (exhibit : Exhibit) (session : Session) (node : NodeId) : String :=
  (View.of session.store exhibit.program node).render

/-- The literals of the program with their text. -/
def literals (exhibit : Exhibit) : List (ExprId × String) :=
  exhibit.program.numberedExprs.filterMap fun (id, expr) ↦ expr.literal?.map (id, ·)

/-- All places where a literal is written with the given text. -/
def places (exhibit : Exhibit) (literal : String) : Except Failure (List ExprId) :=
  match exhibit.literals.filter (·.2 == literal) with
  | [] => .error (.absentLiteral exhibit.sample.name literal)
  | found => .ok (found.map (·.1))

end Exhibit

/-- Carries out an operation of a session. -/
def continueWith (session : Session) (operation : InSession Unit) : Except Failure Session :=
  match operation session with
  | .ok _ session => .ok session
  | .error error _ => .error (.session error)

/-- Fills a text up with blanks on its right. -/
def padded (width : Nat) (text : String) : String :=
  text ++ String.ofList (List.replicate (width - text.length) ' ')

def listing : Except Failure String := do
  let exhibits ← Gallery.all.mapM Exhibit.ofExample
  return textOfLines (exhibits.map fun exhibit ↦
    padded 20 exhibit.sample.name ++ " " ++ exhibit.sample.description)

/-- The result of an example, or how it came about. -/
def result (settings : Settings) (name : String) (json explain : Bool) : Except Failure String := do
  let exhibit ← Exhibit.named name
  let (node, session) ← (exhibit.evaluate settings).mapError (.evaluating exhibit.sample.name)
  let trace := Trace.of session.store exhibit.program node
  return match json, explain with
    | true, true => trace.toDocument.pretty ++ "\n"
    | true, false => (Snapshot.capture session.store exhibit.program).toDocument.pretty ++ "\n"
    | false, true => trace.render
    | false, false => exhibit.view session node ++ "\n"

/-- What is lost when literals are withheld. -/
def losses (settings : Settings) (name : String) (literals : List String) :
    Except Failure String := do
  let exhibit ← Exhibit.named name
  let roots := (← literals.mapM exhibit.places).flatten
  let (node, session) ← (exhibit.evaluate settings).mapError .session
  let session ← continueWith session (Session.sliceForward (roots.map .expr))
  let fate :=
    if session.marks.isAvailable (.node node) then "stays available" else "becomes unavailable"
  let lost := session.marks.flaggedNodes
  return textOfLines
    (("result " ++ exhibit.view session node ++ " " ++ fate) ::
      (toString lost.length ++ " unavailable node(s)") ::
      lost.map fun node ↦
        "  " ++ node.text ++ " " ++ (session.store.address node).text ++ " = " ++
          exhibit.view session node)

/-- Which literals the result needed. -/
def needs (settings : Settings) (name : String) : Except Failure String := do
  let exhibit ← Exhibit.named name
  let (node, session) ← (exhibit.evaluate settings).mapError .session
  let session ← continueWith session (Session.sliceBackward [.node node])
  let (needed, unused) :=
    exhibit.literals.partition fun (id, _) ↦ session.marks.isFlagged (.expr id)
  return textOfLines
    (["result " ++ exhibit.view session node ++ " needed " ++ toString needed.length ++
        " literal(s)"] ++
      needed.map (fun (id, text) ↦ "  e" ++ toString id.index ++ " " ++ text) ++
      [toString unused.length ++ " literal(s) not needed"])

/-- How an outcome falls short of what is expected. -/
def shortfall? (expected : Expectation) (outcome : Except Error String) : Option String :=
  match expected, outcome with
  | .value rendering, .ok actual =>
    if actual = rendering then none else some ("expected " ++ rendering ++ ", got " ++ actual)
  | .value rendering, .error error =>
    some ("expected " ++ rendering ++ ", failed with " ++ error.message)
  | .error fragment, .ok actual =>
    some ("expected an error mentioning `" ++ fragment ++ "`, got " ++ actual)
  | .error fragment, .error error =>
    if error.message.contains fragment then none
    else some ("expected an error mentioning `" ++ fragment ++ "`, got " ++ error.message)

def complaint? (settings : Settings) (name : String) : Option String :=
  match Exhibit.named name with
  | .error failure => some failure.message
  | .ok exhibit =>
    shortfall? exhibit.sample.expected
      ((exhibit.evaluate settings).map fun (node, session) ↦ exhibit.view session node)

def checks (settings : Settings) (names : List String) : Report :=
  let names := if names.isEmpty then Gallery.all.map (·.name) else names
  let verdicts := names.map fun name ↦ (name, complaint? settings name)
  let failed := (verdicts.filter (·.2.isSome)).length
  { exitCode := if failed = 0 then 0 else 1
    output := textOfLines (verdicts.map fun
      | (name, none) => "ok   " ++ name
      | (name, some complaint) => "FAIL " ++ name ++ ": " ++ complaint)
    diagnostics :=
      "\n" ++ toString names.length ++ " tests: " ++ toString (names.length - failed) ++
        " passed, " ++ toString failed ++ " failed\n" }

def reportOf : Except Failure String → Report
  | .ok output => { output }
  | .error failure => failure.report

def Action.perform (settings : Settings) : Action → Report
  | .list => reportOf listing
  | .run sample json explain => reportOf (result settings sample json explain)
  | .forward sample literals => reportOf (losses settings sample literals)
  | .backward sample => reportOf (needs settings sample)
  | .test samples => checks settings samples

end Whence.Command
