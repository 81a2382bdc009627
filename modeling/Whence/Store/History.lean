import Whence.Knowledge

/-!
# The history of a node

A revision that learns something new about a node has an entry of its own; the others see the entry
of their nearest ancestor.  A revision that writes only what it already sees gets no entry, but the
write is kept as an echo, so that later writes of the same revision must agree with it.
-/

namespace Whence

structure History where
  /-- What each revision holds by itself, oldest entry first. -/
  entries : List (Revision × Knowledge) := []
  /-- What a revision wrote although it inherits it. -/
  echoes : List (Revision × Knowledge) := []
  deriving DecidableEq, Repr

namespace History

/-- What is visible along a lineage: the entry of the first revision that has one. -/
def visible? (history : History) (lineage : List Revision) : Option Knowledge :=
  lineage.findSome? fun revision ↦ history.entries.lookup revision

/-- Changes the entry that a revision already has. -/
def amend (history : History) (revision : Revision) (knowledge : Knowledge) : History :=
  { history with
    entries := history.entries.map fun entry ↦
      if entry.1 == revision then (revision, knowledge) else entry }

def dropEcho (history : History) (revision : Revision) : List (Revision × Knowledge) :=
  history.echoes.filter fun echo ↦ echo.1 != revision

/-- Gives a revision its first entry, which takes the place of its echo. -/
def enter (history : History) (revision : Revision) (knowledge : Knowledge) : History :=
  ⟨history.entries ++ [(revision, knowledge)], history.dropEcho revision⟩

def echo (history : History) (revision : Revision) (knowledge : Knowledge) : History :=
  { history with echoes := (revision, knowledge) :: history.dropEcho revision }

/-- What a revision without an entry has written altogether. -/
def written (history : History) (revision : Revision) (knowledge : Knowledge) :
    Except Conflict Knowledge :=
  match history.echoes.lookup revision with
  | some earlier => merge earlier knowledge
  | none => .ok knowledge

/-- Records what a revision without an entry has written.  What it inherits is kept as far as it
agrees, and replaced where it does not. -/
def record (history : History) (lineage : List Revision) (revision : Revision)
    (written : Knowledge) : History :=
  match history.visible? lineage with
  | none => history.enter revision written
  | some inherited =>
    match merge inherited written with
    | .ok merged =>
      if merged.same inherited then history.echo revision written
      else history.enter revision merged
    | .error _ => history.enter revision written

/-- Writes `knowledge` at `revision`, whose lineage is given. -/
def commit (history : History) (lineage : List Revision) (revision : Revision)
    (knowledge : Knowledge) : Except Conflict History :=
  if knowledge.isBlank then .ok history
  else
    match history.entries.lookup revision with
    | some own => do
      let merged ← merge own knowledge
      pure (history.amend revision merged)
    | none => do
      let written ← history.written revision knowledge
      pure (history.record lineage revision written)

/-- The revisions that have an entry, oldest entry first. -/
def versions (history : History) : List Revision := history.entries.map Prod.fst

end History

end Whence
