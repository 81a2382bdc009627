import Std.Data.HashMap
import Whence.Identifier
import Whence.Symbol

/-!
# Environments

An environment is a chain of bindings, innermost first.  Equal chains are the same environment, so
that an address made of an environment and an expression survives evaluation from anew.
-/

namespace Whence

inductive Binding where
  /-- A node, which may still be unevaluated. -/
  | node (id : NodeId)
  /-- The entry at `position` of a recursive group, closed over the scope when it is looked up. -/
  | recursive (scope : Scope) (position : Nat)
  deriving DecidableEq, Hashable, Repr

/-- What distinguishes an environment from the one it extends. -/
structure Extension where
  parent : EnvId
  name : Symbol
  binding : Binding
  deriving DecidableEq, Hashable, Repr

/-- All environments made so far.  The first one is empty, each other one is an extension. -/
structure Environments where
  frames : Array (Option Extension) := #[none]
  ids : Std.HashMap Extension EnvId := ∅

namespace Environments

def size (envs : Environments) : Nat := envs.frames.size

/-- What an environment adds to its parent.  The empty one adds nothing. -/
def extension? (envs : Environments) (env : EnvId) : Option Extension :=
  envs.frames[env.index]?.join

/-- The bindings of an environment, innermost first, with those that are shadowed.  A parent is
older than its extension, so the way along the parents ends. -/
@[semireducible]
def entries (envs : Environments) (env : EnvId) : List (Symbol × Binding) :=
  match envs.extension? env with
  | none => []
  | some ⟨parent, name, binding⟩ =>
    (name, binding) :: if _older : parent.index < env.index then envs.entries parent else []
termination_by env.index

def depth (envs : Environments) (env : EnvId) : Nat := (envs.entries env).length

/-- The innermost binding of a name. -/
@[semireducible]
def get? (envs : Environments) (env : EnvId) (name : Symbol) : Option Binding :=
  match envs.extension? env with
  | none => none
  | some ⟨parent, bound, binding⟩ =>
    if bound = name then some binding
    else if _older : parent.index < env.index then envs.get? parent name
    else none
termination_by env.index

def has (envs : Environments) (env : EnvId) (name : Symbol) : Bool :=
  (envs.get? env name).isSome

def extend (envs : Environments) (parent : EnvId) (name : Symbol) (binding : Binding) :
    EnvId × Environments :=
  let extension : Extension := ⟨parent, name, binding⟩
  match envs.ids[extension]? with
  | some id => (id, envs)
  | none =>
    let id : EnvId := ⟨envs.frames.size⟩
    (id, ⟨envs.frames.push (some extension), envs.ids.insert extension id⟩)

def singleton (envs : Environments) (name : Symbol) (binding : Binding) : EnvId × Environments :=
  envs.extend .empty name binding

/-- Extends by several bindings, the last of which becomes the innermost. -/
def extendAll (envs : Environments) (env : EnvId) :
    List (Symbol × Binding) → EnvId × Environments
  | [] => (env, envs)
  | (name, binding) :: rest =>
    let (env, envs) := envs.extend env name binding
    envs.extendAll env rest

/-- The bindings of `inner` over those of `outer`. -/
def concat (envs : Environments) (inner outer : EnvId) : EnvId × Environments :=
  envs.extendAll outer (envs.entries inner).reverse

end Environments

end Whence
