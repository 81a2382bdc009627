import Whence.Document

/-!
# Settings

Settings are read from a document in which every entry may be missing and entries with other names
are passed over.  A record is written as a table or as the sequence of its entries.  Sources differ
in whether such a sequence may have surplus items.
-/

namespace Whence

/-- Limits of the evaluator. -/
structure Settings where
  /-- The nesting of evaluations at which evaluation gives up. -/
  maxDepth : Nat := 10000
  /-- Whether the outcome of an evaluation is used again within its revision. -/
  memoize : Bool := true
  /-- How far a match descends into values beyond the nodes at hand before it gives up, which it
  must if a value contains itself.  Files do not set it. -/
  reach : Nat := 1000000
  deriving DecidableEq, Repr

/-- All that a settings file can hold. -/
structure Configuration where
  evaluation : Settings := {}
  deriving DecidableEq, Repr

/-- What becomes of items beyond the entries of a record. -/
inductive Surplus where
  | ignored
  | refused
  deriving DecidableEq, Repr

namespace Document

/-- The entries of a record, in the order of their names.  A moment counts as a table, none of whose
entries has a name that is asked for. -/
def entries? (surplus : Surplus) (names : List String) :
    Document → Option (List (Option Document))
  | .table fields => some (names.map fun name ↦ fields.lookup name)
  | .moment _ => some (names.map fun _ ↦ none)
  | .sequence items =>
    if surplus = .refused ∧ names.length < items.length then none
    else some (names.mapIdx fun position _ ↦ items[position]?)
  | _ => none

def bool? : Document → Option Bool
  | .bool value => some value
  | _ => none

/-- An integer of at most 64 bits that is not negative. -/
def word? : Document → Option Nat
  | .integer value => if 0 ≤ value ∧ value < UInt64.size then some value.toNat else none
  | _ => none

end Document

/-- A missing entry has its default. -/
def readEntry? {α : Type} (read? : Document → Option α) (default : α) : Option Document → Option α
  | none => some default
  | some document => read? document

def Settings.ofDocument? (surplus : Surplus) (document : Document) : Option Settings := do
  let [maxDepth, memoize] ← document.entries? surplus ["max_depth", "memoize"] | none
  let default : Settings := {}
  return {
    maxDepth := ← readEntry? Document.word? default.maxDepth maxDepth
    memoize := ← readEntry? Document.bool? default.memoize memoize }

def Configuration.ofDocument? (surplus : Surplus) (document : Document) :
    Option Configuration := do
  let [evaluation] ← document.entries? surplus ["eval"] | none
  return { evaluation := ← readEntry? (Settings.ofDocument? surplus) {} evaluation }

end Whence
