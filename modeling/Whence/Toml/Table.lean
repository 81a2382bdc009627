import Whence.Document

/-!
# Tables of a settings file

A file fills a table piece by piece: under its header, and by dotted keys.  Each table remembers
how it came about, which decides what may still be added, so that nothing is defined twice.
-/

namespace Whence.Toml

inductive Origin where
  /-- Named on the way to another table; its own header may still follow. -/
  | passed
  /-- Made by a dotted key; it takes no header of its own. -/
  | dotted
  /-- Introduced by its own header. -/
  | header
  deriving DecidableEq, Repr

inductive Item where
  | value (document : Document)
  | table (origin : Origin) (fields : List (String × Item))
  /-- Tables under one key, each from a header of its own. -/
  | tables (elements : List (List (String × Item)))

abbrev Fields := List (String × Item)

namespace Fields

/-- Gives a key an item, in its place or at the end. -/
def put (key : String) (item : Item) : Fields → Fields
  | [] => [(key, item)]
  | (name, old) :: fields =>
    if name = key then (name, item) :: fields else (name, old) :: put key item fields

def update (key : String) (change : Option Item → Option Item) (fields : Fields) :
    Option Fields := do
  return put key (← change (fields.lookup key)) fields

/-- Gives a value to a dotted key that has none.  The key leads through tables without a header of
their own and through the last of the tables under one key; the table that takes the value is the
one at hand or made by dotted keys. -/
def assign (value : Document) : List String → Fields → Option Fields
  | [] => fun _ ↦ none
  | [key] =>
    update key fun
      | none => some (.value value)
      | some _ => none
  | key :: path =>
    update key fun
      | none => .table .dotted <$> assign value path []
      | some (.table .dotted fields) => .table .dotted <$> assign value path fields
      | some (.table .passed fields) =>
        if path.length = 1 then none else .table .passed <$> assign value path fields
      | some (.tables elements) => do
        if path.length = 1 then none
        let last ← assign value path (← elements.getLast?)
        return .tables (elements.dropLast ++ [last])
      | some _ => none

def fill (entries : List (List String × Document)) (fields : Fields) : Option Fields :=
  entries.foldlM (fun fields (path, value) ↦ fields.assign value path) fields

/-- Changes the item at the end of a header's path.  Among tables under one key the path leads
through the last. -/
def introduce (change : Option Item → Option Item) : List String → Fields → Option Fields
  | [] => fun _ ↦ none
  | [key] => update key change
  | key :: path =>
    update key fun
      | none => .table .passed <$> introduce change path []
      | some (.table origin fields) => .table origin <$> introduce change path fields
      | some (.tables elements) => do
        let last ← introduce change path (← elements.getLast?)
        return .tables (elements.dropLast ++ [last])
      | some (.value _) => none

/-- Adds what stands under a table's header. -/
def addTable (path : List String) (entries : List (List String × Document)) :
    Fields → Option Fields :=
  introduce (fun
    | none => .table .header <$> fill entries []
    | some (.table .passed fields) => .table .header <$> fill entries fields
    | some _ => none) path

/-- Adds a further table under one key. -/
def addElement (path : List String) (entries : List (List String × Document)) :
    Fields → Option Fields :=
  introduce (fun
    | none => do return .tables [← fill entries []]
    | some (.tables elements) => do return .tables (elements ++ [← fill entries []])
    | some _ => none) path

end Fields

mutual

def Item.toDocument : Item → Document
  | .value document => document
  | .table _ fields => .table (documentsOfFields fields)
  | .tables elements => .sequence (documentsOfElements elements)

def documentsOfFields : List (String × Item) → List (String × Document)
  | [] => []
  | (name, item) :: fields => (name, item.toDocument) :: documentsOfFields fields

def documentsOfElements : List (List (String × Item)) → List Document
  | [] => []
  | fields :: elements => .table (documentsOfFields fields) :: documentsOfElements elements

end

def Fields.toDocument (fields : Fields) : Document := .table (documentsOfFields fields)

end Whence.Toml
