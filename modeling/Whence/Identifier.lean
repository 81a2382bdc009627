/-!
# Identifiers

Expressions, demands, recursive groups, environments, nodes and revisions are numbered from zero in
the order in which they come into being.  Each kind of number has its own type.  The numbers have no
bound: what comes into being last still has a number of its own, where one in 32 bits would start
again from zero.
-/

namespace Whence

/-- An expression of a program. -/
structure ExprId where
  index : Nat
  deriving DecidableEq, Hashable, Repr, Inhabited

/-- A demand of a program. -/
structure DemandId where
  index : Nat
  deriving DecidableEq, Hashable, Repr, Inhabited

/-- A recursive group of a program. -/
structure GroupId where
  index : Nat
  deriving DecidableEq, Hashable, Repr, Inhabited

/-- An environment of a store. -/
structure EnvId where
  index : Nat
  deriving DecidableEq, Hashable, Repr, Inhabited

/-- A node of a store. -/
structure NodeId where
  index : Nat
  deriving DecidableEq, Hashable, Repr, Inhabited

/-- A revision of a store. -/
structure Revision where
  index : Nat
  deriving DecidableEq, Hashable, Repr, Inhabited

namespace EnvId

/-- The environment that binds nothing. -/
def empty : EnvId := ⟨0⟩

end EnvId

namespace Revision

def root : Revision := ⟨0⟩

end Revision

namespace NodeId

def text (node : NodeId) : String := "#" ++ toString node.index

end NodeId

/-- The recursive group from which a closure was made, with the environment around the group. -/
structure Scope where
  env : EnvId
  group : GroupId
  deriving DecidableEq, Hashable, Repr, Inhabited

end Whence
