import Std.Data.HashSet
import Whence.View.Basic

/-!
# Traces

The trace of a node shows its explanation with the traces of the nodes it depends on below it.
Each node is expanded where it first occurs; later it is shown as a reference without children.
-/

namespace Whence

inductive Trace where
  | entry (node : NodeId) (label : String) (view : View) (children : List Trace)

namespace Trace

/-- How an expanded node is labelled. -/
def label (program : Program) : Option Explanation → String
  | none => "unevaluated"
  | some (.lookup name _) => "var " ++ program.name name
  | some (.binary _ _ op _) => "binary-app " ++ op.name
  | some (.letIn name _ _) => "let " ++ program.name name
  | some explanation => explanation.kind

/-- The known nodes that the explanation of a node names, with repetitions. -/
def premises (store : Store) (node : NodeId) : List NodeId :=
  (((store.explanation? node).map Explanation.dependencies).getD []).filter store.isKnown

/-- The nodes expanded so far. -/
abbrev Tracing := StateM (Std.HashSet NodeId)

/-- Only a node that was not expanded before is expanded, so the number of nodes bounds the
depth. -/
def build (store : Store) (program : Program) : Nat → NodeId → Tracing Trace
  | 0, node => pure (.entry node "ref" (View.of store program node) [])
  | depth + 1, node => do
    let view := View.of store program node
    if (← get).contains node then
      pure (.entry node "ref" view [])
    else
      modify fun expanded ↦ expanded.insert node
      let children ← (premises store node).mapM (build store program depth)
      pure (.entry node (label program (store.explanation? node)) view children)

def of (store : Store) (program : Program) (root : NodeId) : Trace :=
  ((build store program (store.size + 1) root).run ∅).1

mutual

/-- The lines of a trace at a level of indentation. -/
def lines (level : Nat) : Trace → List String
  | .entry node label view children =>
    (Document.indentation level ++ node.text ++ " " ++ label ++ " = " ++ view.render ++ "\n") ::
      linesOfAll (level + 1) children

def linesOfAll (level : Nat) : List Trace → List String
  | [] => []
  | trace :: traces => lines level trace ++ linesOfAll level traces

end

/-- One line for each entry, children indented below their parent. -/
def render (trace : Trace) : String := String.join (lines 0 trace)

mutual

def toDocument : Trace → Document
  | .entry node label view children =>
    .table [("node", .integer node.index), ("label", .text label), ("value", view.toDocument),
      ("children", .sequence (toDocuments children))]

def toDocuments : List Trace → List Document
  | [] => []
  | trace :: traces => toDocument trace :: toDocuments traces

end

end Trace

end Whence
