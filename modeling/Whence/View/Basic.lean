import Whence.Document
import Whence.Store.Basic
import Whence.Syntax.Program

/-!
# Views of values

A view is a value with its parts in place.  A chain of cells that ends is shown as a list.  A value
that contains itself is cut where it comes round again.
-/

namespace Whence

inductive View where
  | number (value : Number)
  | text (value : String)
  | closure (function : ExprId)
  | primitive (name : String)
  | constructor (tag : String) (args : List View)
  | list (items : List View)
  | unevaluated
  /-- A constructor that contains itself. -/
  | cycle (node : NodeId)

namespace View

/-- The elements of a chain of cells with an end.  A chain of more cells than there are nodes comes
round again. -/
def listItems? (store : Store) : Nat → NodeId → Option (List NodeId)
  | 0, _ => none
  | cells + 1, node =>
    match store.value? node with
    | some (.constructor tag args) =>
      if tag = .nilTag then some []
      else if tag = .consTag then
        match args with
        | [head, tail] => (listItems? store cells tail).map (head :: ·)
        | _ => none
      else none
    | _ => none

/-- `enclosing` holds the nodes whose values are being shown around this one.  Each of them is
another node, so the number of nodes bounds the depth. -/
def inline (store : Store) (program : Program) : Nat → List NodeId → NodeId → View
  | 0, _, node => .cycle node
  | depth + 1, enclosing, node =>
    match store.value? node with
    | none => .unevaluated
    | some (.number value) => .number value
    | some (.text value) => .text value
    | some (.closure value) => .closure value.function
    | some (.primitive value) => .primitive value.name
    | some (.constructor tag args) =>
      if enclosing.contains node then .cycle node
      else
        match listItems? store store.size node with
        | some items => .list (items.map (inline store program depth (node :: enclosing)))
        | none =>
          .constructor (program.name tag)
            (args.map (inline store program depth (node :: enclosing)))

/-- The view of a node at the current revision. -/
def of (store : Store) (program : Program) (node : NodeId) : View :=
  inline store program (store.size + 1) [] node

mutual

def render : View → String
  | .number value => value.plain
  | .text value => Text.Quoted.quote value
  | .closure _ => "<closure>"
  | .primitive name => "<primitive " ++ name ++ ">"
  | .constructor tag [] => tag
  | .constructor tag (arg :: args) =>
    tag ++ "(" ++ ", ".intercalate (render arg :: renderAll args) ++ ")"
  | .list items => "[" ++ ", ".intercalate (renderAll items) ++ "]"
  | .unevaluated => "_"
  | .cycle node => "<cycle " ++ node.text ++ ">"

def renderAll : List View → List String
  | [] => []
  | view :: views => render view :: renderAll views

end

mutual

def toDocument : View → Document
  | .number value => .table [("Number", .number value)]
  | .text value => .table [("Text", .text value)]
  | .closure function => .table [("Closure", .table [("func", .integer function.index)])]
  | .primitive name => .table [("Primitive", .text name)]
  | .constructor tag args =>
    .table [("Constructor", .table [("tag", .text tag), ("args", .sequence (toDocuments args))])]
  | .list items => .table [("List", .sequence (toDocuments items))]
  | .unevaluated => .text "Unevaluated"
  | .cycle node => .table [("Cycle", .table [("node", .integer node.index)])]

def toDocuments : List View → List Document
  | [] => []
  | view :: views => toDocument view :: toDocuments views

end

end View

end Whence
