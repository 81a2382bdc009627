import Whence.View.Basic

/-!
# Snapshots

A snapshot lists the nodes of which the current revision knows anything.
-/

namespace Whence

structure Record where
  node : NodeId
  address : String
  /-- The kind of the explanation. -/
  explanation : Option String
  view : Option View
  /-- The revisions that have an entry of their own. -/
  versions : List Revision

structure Snapshot where
  version : Nat
  revision : Revision
  records : List Record

namespace Record

def of (store : Store) (program : Program) (node : NodeId) : Record where
  node := node
  address := (store.address node).text
  explanation := (store.explanation? node).map Explanation.kind
  view := (store.value? node).map fun _ ↦ View.of store program node
  versions := store.versions node

def toDocument (record : Record) : Document :=
  .table [("id", .integer record.node.index), ("address", .text record.address),
    ("explanation", (record.explanation.map Document.text).getD .null),
    ("value", (record.view.map View.toDocument).getD .null),
    ("versions", .sequence (record.versions.map fun revision ↦ .integer revision.index))]

end Record

namespace Snapshot

/-- The version of the layout of snapshots. -/
def layoutVersion : Nat := 1

def capture (store : Store) (program : Program) : Snapshot where
  version := layoutVersion
  revision := store.current
  records := (store.nodeIds.filter store.isKnown).map (Record.of store program)

def toDocument (snapshot : Snapshot) : Document :=
  .table [("version", .integer snapshot.version), ("world", .integer snapshot.revision.index),
    ("nodes", .sequence (snapshot.records.map Record.toDocument))]

end Snapshot

end Whence
