import Whence.Proofs.Descent
import Whence.Syntax.Pattern

/-!
# What patterns ask and what they bind

A pattern matches a node whose value is known to the bottom or it does not, and if it does, it binds
names to parts of the node.  The same is said once more without patterns: a pattern is a list of
tests, made one after the other on the nodes that are still to be looked at.  A test for a
constructor puts the arguments in front of these nodes.
-/

namespace Whence

open Relation

/-- The names that are bound, in the order in which the pattern binds them. -/
abbrev Bindings := List (String × NodeId)

namespace Pattern

mutual

/-- What a pattern binds on a node, if it matches. -/
def bindings? (program : Program) (store : Store) : Pattern → NodeId → Option Bindings
  | .bind name, node => some [(name, node)]
  | .wild, node => some [("_", node)]
  | .number, node =>
    match store.value? node with
    | some (.number _) => some []
    | _ => none
  | .text, node =>
    match store.value? node with
    | some (.text _) => some []
    | _ => none
  | .function, node =>
    match store.value? node with
    | some (.closure _) => some []
    | some (.primitive _) => some []
    | _ => none
  | .constructor tag args, node =>
    match store.value? node with
    | some (.constructor found nodes) =>
      if program.symbol? tag = some found then bindingsAll? program store args nodes else none
    | _ => none

/-- The same for the arguments of a constructor, from left to right. -/
def bindingsAll? (program : Program) (store : Store) :
    List Pattern → List NodeId → Option Bindings
  | [], [] => some []
  | arg :: args, node :: nodes => do
    let first ← arg.bindings? program store node
    let rest ← bindingsAll? program store args nodes
    some (first ++ rest)
  | _, _ => none

end

mutual

/-- The constructors of the pattern have as many arguments as they are declared with. -/
def Fits (program : Program) (arities : Symbol → Option Nat) : Pattern → Prop
  | .constructor tag args =>
    (∃ symbol, program.symbol? tag = some symbol ∧ arities symbol = some args.length) ∧
      FitsAll program arities args
  | _ => True

def FitsAll (program : Program) (arities : Symbol → Option Nat) : List Pattern → Prop
  | [] => True
  | arg :: args => arg.Fits program arities ∧ FitsAll program arities args

end

end Pattern

/-- A constructor that is declared has all its arguments. -/
def Value.Saturated (arities : Symbol → Option Nat) : Value → Prop
  | .constructor tag args => ∀ arity, arities tag = some arity → args.length = arity
  | _ => True

/-- The node and all its parts have values, in which no constructor lacks an argument. -/
def Store.Complete (store : Store) (arities : Symbol → Option Nat) (node : NodeId) : Prop :=
  ∀ part, ReflTransGen store.IsPart node part →
    ∃ value, store.value? part = some value ∧ value.Saturated arities

namespace Store.Complete

variable {store : Store} {arities : Symbol → Option Nat} {node : NodeId}

theorem exists_value (hcomplete : store.Complete arities node) :
    ∃ value, store.value? node = some value ∧ value.Saturated arities :=
  hcomplete node .refl

theorem args (hcomplete : store.Complete arities node) {tag : Symbol} {args : List NodeId}
    (hvalue : store.value? node = some (.constructor tag args)) :
    ∀ arg ∈ args, store.Complete arities arg :=
  fun _ harg part hpath ↦ hcomplete part (.head ⟨_, hvalue, harg⟩ hpath)

theorem length_args (hcomplete : store.Complete arities node) {tag : Symbol} {args : List NodeId}
    (hvalue : store.value? node = some (.constructor tag args)) {arity : Nat}
    (harity : arities tag = some arity) : args.length = arity := by
  obtain ⟨value, hvalue', hsaturated⟩ := hcomplete.exists_value
  rw [hvalue] at hvalue'
  cases hvalue'
  exact hsaturated arity harity

end Store.Complete

/-- What a pattern asks of one node. -/
inductive Test where
  | bind (name : String)
  | number
  | text
  | function
  | constructor (tag : String)
  deriving DecidableEq, Repr

namespace Pattern

mutual

/-- The tests of a pattern in the order in which they are made. -/
def tests : Pattern → List Test
  | .bind name => [.bind name]
  | .wild => [.bind "_"]
  | .number => [.number]
  | .text => [.text]
  | .function => [.function]
  | .constructor tag args => .constructor tag :: testsAll args

def testsAll : List Pattern → List Test
  | [] => []
  | arg :: args => arg.tests ++ testsAll args

end

end Pattern

/-- The tests of the pattern. -/
def Clause.tests (clause : Clause) : List Test := clause.pattern.tests

namespace Test

/-- The two tests ask for different constructors. -/
def parts : Test → Test → Bool
  | .constructor tag, .constructor other => tag ≠ other
  | _, _ => false

/-- What is left of the second list after the two have come to ask for different constructors, if
they agree up to there. -/
def parting? : List Test → List Test → Option (List Test)
  | test :: tests, other :: others =>
    if test = other then parting? tests others
    else if test.parts other then some others else none
  | _, _ => none

theorem ne_of_parts {test other : Test} (hparts : test.parts other = true) : test ≠ other := by
  rintro rfl
  cases test <;> simp [parts] at hparts

theorem parting?_cons_self (test : Test) (tests others : List Test) :
    parting? (test :: tests) (test :: others) = parting? tests others :=
  if_pos rfl

theorem parting?_of_parts {test other : Test} (hparts : test.parts other = true)
    (tests others : List Test) : parting? (test :: tests) (other :: others) = some others := by
  rw [parting?, if_neg (ne_of_parts hparts), if_pos hparts]

theorem parting?_of_not_parts {test other : Test} (hne : test ≠ other)
    (hparts : test.parts other = false) (tests others : List Test) :
    parting? (test :: tests) (other :: others) = none := by
  rw [parting?, if_neg hne, if_neg (by simp [hparts])]

@[simp] theorem parting?_self (tests : List Test) : parting? tests tests = none := by
  induction tests with
  | nil => rfl
  | cons test tests ih => rw [parting?_cons_self, ih]

/-- What a node that passes the test binds, and the nodes that are to be looked at next. -/
def meets? (program : Program) (store : Store) : Test → NodeId → Option (Bindings × List NodeId)
  | .bind name, node => some ([(name, node)], [])
  | .number, node =>
    match store.value? node with
    | some (.number _) => some ([], [])
    | _ => none
  | .text, node =>
    match store.value? node with
    | some (.text _) => some ([], [])
    | _ => none
  | .function, node =>
    match store.value? node with
    | some (.closure _) => some ([], [])
    | some (.primitive _) => some ([], [])
    | _ => none
  | .constructor tag, node =>
    match store.value? node with
    | some (.constructor found args) =>
      if program.symbol? tag = some found then some ([], args) else none
    | _ => none

/-- What the tests bind on the nodes, and the nodes that they do not come to. -/
def walk? (program : Program) (store : Store) :
    List Test → List NodeId → Option (Bindings × List NodeId)
  | [], nodes => some ([], nodes)
  | _ :: _, [] => none
  | test :: tests, node :: nodes => do
    let (bound, parts) ← test.meets? program store node
    let (rest, left) ← walk? program store tests (parts ++ nodes)
    some (bound ++ rest, left)

variable {program : Program} {store : Store} {tests : List Test} {nodes left : List NodeId}
  {bindings : Bindings}

theorem walk?_cons {test : Test} {node : NodeId} :
    walk? program store (test :: tests) (node :: nodes) = some (bindings, left) ↔
      ∃ bound parts rest, test.meets? program store node = some (bound, parts) ∧
        walk? program store tests (parts ++ nodes) = some (rest, left) ∧ bindings = bound ++ rest := by
  constructor
  · intro hwalk
    obtain ⟨⟨bound, parts⟩, hmeets, hrest⟩ := Option.bind_eq_some_iff.1 hwalk
    obtain ⟨⟨rest, left'⟩, hrest, hboth⟩ := Option.bind_eq_some_iff.1 hrest
    cases hboth
    exact ⟨bound, parts, rest, hmeets, hrest, rfl⟩
  · rintro ⟨bound, parts, rest, hmeets, hrest, rfl⟩
    simp [walk?, hmeets, hrest]

/-- Tests are made one after the other. -/
theorem walk?_append {more : List Test} :
    walk? program store (tests ++ more) nodes = some (bindings, left) ↔
      ∃ first middle rest, walk? program store tests nodes = some (first, middle) ∧
        walk? program store more middle = some (rest, left) ∧ bindings = first ++ rest := by
  induction tests generalizing nodes bindings with
  | nil => simp [walk?]
  | cons test tests ih =>
    cases nodes with
    | nil => simp [walk?]
    | cons node nodes =>
      simp only [List.cons_append, walk?_cons, ih]
      constructor
      · rintro ⟨bound, parts, _, hmeets, ⟨first, middle, rest, hfirst, hrest, rfl⟩, rfl⟩
        exact ⟨bound ++ first, middle, rest, ⟨bound, parts, first, hmeets, hfirst, rfl⟩, hrest,
          (List.append_assoc ..).symm⟩
      · rintro ⟨_, middle, rest, ⟨bound, parts, first, hmeets, hfirst, rfl⟩, hrest, rfl⟩
        exact ⟨bound, parts, first ++ rest, hmeets, ⟨first, middle, rest, hfirst, hrest, rfl⟩,
          List.append_assoc ..⟩

/-- More nodes at the end are left as they are. -/
theorem walk?_nodes_append (hwalk : walk? program store tests nodes = some (bindings, left))
    (more : List NodeId) :
    walk? program store tests (nodes ++ more) = some (bindings, left ++ more) := by
  induction tests generalizing nodes bindings with
  | nil =>
    cases hwalk
    rfl
  | cons test tests ih =>
    cases nodes with
    | nil => cases hwalk
    | cons node nodes =>
      obtain ⟨bound, parts, rest, hmeets, hrest, rfl⟩ := walk?_cons.1 hwalk
      have hlater := ih hrest
      rw [List.append_assoc] at hlater
      exact walk?_cons.2 ⟨bound, parts, rest, hmeets, hlater, rfl⟩

end Test

namespace Pattern

open Test

variable {program : Program} {store : Store} {arities : Symbol → Option Nat}

mutual

/-- On a complete node the tests of a pattern come to what the pattern says. -/
theorem walk?_tests (pattern : Pattern) (hfits : pattern.Fits program arities) {node : NodeId}
    (hcomplete : store.Complete arities node) (nodes : List NodeId) :
    walk? program store pattern.tests (node :: nodes) =
      (pattern.bindings? program store node).map fun bindings ↦ (bindings, nodes) := by
  cases pattern with
  | bind name => rfl
  | wild => rfl
  | number =>
    simp only [tests, bindings?, walk?, meets?]
    split <;> rfl
  | text =>
    simp only [tests, bindings?, walk?, meets?]
    split <;> rfl
  | function =>
    simp only [tests, bindings?, walk?, meets?]
    split <;> rfl
  | constructor tag args =>
    obtain ⟨⟨symbol, hsymbol, harity⟩, hargs⟩ := hfits
    obtain ⟨value, hvalue, -⟩ := hcomplete.exists_value
    cases value with
    | constructor found parts =>
      simp only [tests, bindings?, walk?, meets?, hvalue, hsymbol]
      split
      case isTrue hfound =>
        cases hfound
        have hall := walk?_testsAll args hargs (hcomplete.args hvalue)
          (hcomplete.length_args hvalue harity) nodes
        simp only [Option.bind_eq_bind, Option.bind_some, hall]
        cases bindingsAll? program store args parts <;> rfl
      case isFalse => rfl
    | _ => simp [tests, bindings?, walk?, meets?, hvalue]

theorem walk?_testsAll (patterns : List Pattern) (hfits : FitsAll program arities patterns)
    {parts : List NodeId} (hcomplete : ∀ part ∈ parts, store.Complete arities part)
    (hlength : parts.length = patterns.length) (nodes : List NodeId) :
    walk? program store (testsAll patterns) (parts ++ nodes) =
      (bindingsAll? program store patterns parts).map fun bindings ↦ (bindings, nodes) := by
  cases patterns with
  | nil =>
    cases List.length_eq_zero_iff.1 hlength
    rfl
  | cons pattern patterns =>
    obtain ⟨part, parts, rfl⟩ := List.exists_cons_of_length_eq_add_one hlength
    obtain ⟨hpart, hparts⟩ := List.forall_mem_cons.1 hcomplete
    have hfirst := walk?_tests pattern hfits.1 hpart (parts ++ nodes)
    have hrest := walk?_testsAll patterns hfits.2 hparts (Nat.succ.inj hlength) nodes
    refine Option.ext fun result ↦ ?_
    obtain ⟨bindings, left⟩ := result
    rw [testsAll, List.cons_append, walk?_append]
    simp only [hfirst, Option.map_eq_some_iff, bindingsAll?, Option.bind_eq_bind,
      Option.bind_eq_some_iff, Option.some.injEq, Prod.mk.injEq]
    constructor
    · rintro ⟨_, _, rest, ⟨first, hpattern, rfl, rfl⟩, hwalk, rfl⟩
      rw [hrest] at hwalk
      obtain ⟨_, hpatterns, hsame⟩ := Option.map_eq_some_iff.1 hwalk
      cases hsame
      exact ⟨_, ⟨first, hpattern, rest, hpatterns, rfl⟩, rfl, rfl⟩
    · rintro ⟨_, ⟨first, hpattern, rest, hpatterns, rfl⟩, rfl, rfl⟩
      refine ⟨first, parts ++ nodes, rest, ⟨first, hpattern, rfl, rfl⟩, ?_, rfl⟩
      rw [hrest, hpatterns]
      rfl

end

/-- A pattern matches a complete node if all its tests are passed and nothing is left. -/
theorem bindings?_eq_some_iff {pattern : Pattern} (hfits : pattern.Fits program arities)
    {node : NodeId} (hcomplete : store.Complete arities node) {bindings : Bindings} :
    pattern.bindings? program store node = some bindings ↔
      walk? program store pattern.tests [node] = some (bindings, []) := by
  simp [pattern.walk?_tests hfits hcomplete []]

end Pattern

end Whence
