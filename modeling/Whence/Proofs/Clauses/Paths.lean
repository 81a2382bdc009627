import Whence.Proofs.Clauses.Tests
import Whence.Proofs.Orderly.Tables

/-!
# Paths through a demand

A demand that is made from clauses is a tree of tests with a body at the end of each path.  `Passes`
says which tests one layer makes and what follows each of them, and a path makes tests until it comes
to its end.  Such a demand `Reads` a number of nodes: each path comes to a body after as many tests
as there are nodes, where the arguments of a constructor count as nodes.  The demand of one clause is
a `Chain`, which has one path only.
-/

namespace Whence

variable {program : Program} {arities : Symbol → Option Nat} {layer : Demand} {test : Test}
  {next following : Next}

namespace Program

/-- The layer makes the test, and `next` follows if it is passed. -/
inductive Passes (program : Program) : Demand → Test → Next → Prop
  | bind {name : String} {symbol : Symbol} {next : Next} : program.symbol? name = some symbol →
      Passes program (.bind symbol next) (.bind name) next
  | number {next : Next} : Passes program (.number next) .number next
  | text {next : Next} : Passes program (.text next) .text next
  | function {next : Next} : Passes program (.function next) .function next
  | constructor {tag : String} {symbol : Symbol} {cases : List (Symbol × Next)} {next : Next} :
      program.symbol? tag = some symbol → cases.lookup symbol = some next →
      Passes program (.constructor cases) (.constructor tag) next

/-- Making the tests leads from the one continuation to the other. -/
inductive Path (program : Program) : Next → List Test → Next → Prop
  | nil {next : Next} : Path program next [] next
  | cons {demand : DemandId} {test : Test} {following last : Next} {tests : List Test} :
      program.Passes (program.demand demand) test following → Path program following tests last →
      Path program (.demand demand) (test :: tests) last

/-- The tests lead to the body. -/
abbrev Routes (program : Program) (next : Next) (tests : List Test) (body : ExprId) : Prop :=
  program.Path next tests (.body body)

/-- The symbol stands for a name. -/
def Names (program : Program) (symbol : Symbol) : Prop :=
  ∃ name, program.symbol? name = some symbol

end Program

namespace Demand

/-- A layer as patterns make it, with constructors that are declared. -/
def IsProper (program : Program) (arities : Symbol → Option Nat) : Demand → Prop
  | .bind symbol _ => program.Names symbol
  | .number _ | .text _ | .function _ => True
  | .constructor cases => cases ≠ [] ∧ (cases.map Prod.fst).Nodup ∧
      ∀ case ∈ cases, program.Names case.1 ∧ (arities case.1).isSome
  | .everything _ => False

end Demand

namespace Test

/-- How many nodes are to be looked at after the test besides those that are to come anyway. -/
def width (program : Program) (arities : Symbol → Option Nat) : Test → Nat
  | .constructor tag => ((program.symbol? tag).bind arities).getD 0
  | _ => 0

/-- The layer that makes this test and no other. -/
def layer? (program : Program) : Test → Next → Option Demand
  | .bind name, next => (program.symbol? name).map fun symbol ↦ .bind symbol next
  | .number, next => some (.number next)
  | .text, next => some (.text next)
  | .function, next => some (.function next)
  | .constructor tag, next => (program.symbol? tag).map fun symbol ↦ .constructor [(symbol, next)]

end Test

namespace Program

/-- Each path from `next` comes to a body when `count` nodes have been looked at. -/
inductive Reads (program : Program) (arities : Symbol → Option Nat) : Nat → Next → Prop
  | body {expr : ExprId} : Reads program arities 0 (.body expr)
  | demand {count : Nat} {demand : DemandId} :
      (program.demand demand).IsProper program arities →
      (∀ test following, program.Passes (program.demand demand) test following →
        Reads program arities (test.width program arities + count) following) →
      Reads program arities (count + 1) (.demand demand)

/-- The one path from `next` makes the tests and comes to the body. -/
inductive Chain (program : Program) : Next → List Test → ExprId → Prop
  | body {expr : ExprId} : Chain program (.body expr) [] expr
  | demand {demand : DemandId} {test : Test} {following : Next} {tests : List Test} {expr : ExprId} :
      test.layer? program following = some (program.demand demand) →
      Chain program following tests expr →
      Chain program (.demand demand) (test :: tests) expr

/-- What follows a test is determined by the layer. -/
theorem Passes.unique (hpasses : program.Passes layer test next)
    (hother : program.Passes layer test following) : next = following := by
  cases hpasses with
  | bind _ | number | text | function =>
    cases hother
    rfl
  | constructor hsymbol hlookup =>
    cases hother with
    | constructor hsymbol' hlookup' =>
      rw [hsymbol] at hsymbol'
      cases hsymbol'
      rw [hlookup] at hlookup'
      exact Option.some.inj hlookup'

theorem Passes.mem_nexts (hpasses : program.Passes layer test next) : next ∈ layer.nexts := by
  cases hpasses with
  | bind _ | number | text | function => exact List.mem_singleton_self _
  | constructor _ hlookup => exact List.mem_map.2 ⟨_, Environments.mem_of_lookup hlookup, rfl⟩

/-- A proper layer makes some test. -/
theorem exists_passes (hproper : layer.IsProper program arities) :
    ∃ test next, program.Passes layer test next := by
  cases layer with
  | bind symbol next =>
    obtain ⟨name, hname⟩ := hproper
    exact ⟨_, _, .bind hname⟩
  | number next => exact ⟨_, _, .number⟩
  | text next => exact ⟨_, _, .text⟩
  | function next => exact ⟨_, _, .function⟩
  | constructor cases =>
    obtain ⟨hne, -, hnames⟩ := hproper
    obtain ⟨⟨symbol, next⟩, rest, rfl⟩ := List.exists_cons_of_ne_nil hne
    obtain ⟨⟨tag, htag⟩, -⟩ := hnames _ List.mem_cons_self
    exact ⟨_, _, .constructor htag List.lookup_cons_self⟩
  | everything next => exact hproper.elim

/-- The layer of a test makes this test and no other. -/
theorem passes_layer?_iff (hindexed : program.symbols.Indexed)
    (hlayer : test.layer? program next = some layer) {other : Test} :
    program.Passes layer other following ↔ other = test ∧ following = next := by
  constructor
  · intro hpasses
    cases test with
    | number | text | function =>
      cases hlayer
      cases hpasses
      exact ⟨rfl, rfl⟩
    | bind name =>
      obtain ⟨symbol, hsymbol, rfl⟩ := Option.map_eq_some_iff.1 hlayer
      cases hpasses with
      | bind hother => exact ⟨congrArg Test.bind (hindexed.injective hother hsymbol), rfl⟩
    | constructor tag =>
      obtain ⟨symbol, hsymbol, rfl⟩ := Option.map_eq_some_iff.1 hlayer
      cases hpasses with
      | constructor hother hlookup =>
        have hcase := Environments.mem_of_lookup hlookup
        cases List.mem_singleton.1 hcase
        exact ⟨congrArg Test.constructor (hindexed.injective hother hsymbol), rfl⟩
  · rintro ⟨rfl, rfl⟩
    cases other with
    | number => cases hlayer; exact .number
    | text => cases hlayer; exact .text
    | function => cases hlayer; exact .function
    | bind name =>
      obtain ⟨symbol, hsymbol, rfl⟩ := Option.map_eq_some_iff.1 hlayer
      exact .bind hsymbol
    | constructor tag =>
      obtain ⟨symbol, hsymbol, rfl⟩ := Option.map_eq_some_iff.1 hlayer
      exact .constructor hsymbol List.lookup_cons_self

/-- What follows the layer of a test is one continuation. -/
theorem nexts_of_layer? (hlayer : test.layer? program next = some layer) : layer.nexts = [next] := by
  cases test with
  | number | text | function =>
    cases hlayer
    rfl
  | bind name | constructor tag =>
    obtain ⟨symbol, -, rfl⟩ := Option.map_eq_some_iff.1 hlayer
    rfl

theorem lookup_of_mem {cases : List (Symbol × Next)} (hnodup : (cases.map Prod.fst).Nodup)
    {symbol : Symbol} (hcase : (symbol, next) ∈ cases) : cases.lookup symbol = some next := by
  induction cases with
  | nil => cases hcase
  | cons first rest ih =>
    obtain ⟨hfirst, hrest⟩ := List.nodup_cons.1 hnodup
    obtain rfl | hcase := List.mem_cons.1 hcase
    · exact List.lookup_cons_self
    · have hne : (symbol == first.1) = false := by
        refine beq_eq_false_iff_ne.2 fun hsame ↦ hfirst ?_
        exact List.mem_map.2 ⟨_, hcase, hsame⟩
      rw [List.lookup_cons, hne]
      exact ih hrest hcase

/-- A proper layer that makes a test is the layer of this test, or else it asks for another
constructor as well. -/
theorem Passes.layer?_or_parts (hpasses : program.Passes layer test next)
    (hproper : layer.IsProper program arities) :
    test.layer? program next = some layer ∨
      ∃ other following, program.Passes layer other following ∧ other.parts test = true := by
  cases hpasses with
  | bind hsymbol => exact .inl (by simp [Test.layer?, hsymbol])
  | number | text | function => exact .inl rfl
  | @constructor tag symbol cases next hsymbol hlookup =>
    obtain ⟨-, hnodup, hnames⟩ := hproper
    by_cases hall : ∀ case ∈ cases, case.1 = symbol
    · -- All cases are for this tag, so there is one case only.
      left
      match cases with
      | [] => cases hlookup
      | [(found, following)] =>
        cases hall (found, following) List.mem_cons_self
        rw [List.lookup_cons_self] at hlookup
        cases hlookup
        simp [Test.layer?, hsymbol]
      | first :: second :: _ =>
        have hsame : first.1 = second.1 :=
          (hall first (by simp)).trans (hall second (by simp)).symm
        simp [hsame] at hnodup
    · right
      obtain ⟨⟨found, following⟩, hcase, hne⟩ : ∃ case ∈ cases, case.1 ≠ symbol := by
        simpa using hall
      obtain ⟨⟨other, hother⟩, -⟩ := hnames _ hcase
      refine ⟨.constructor other, following,
        .constructor hother (lookup_of_mem hnodup hcase), ?_⟩
      have hdifferent : other ≠ tag := by
        rintro rfl
        exact hne (Option.some.inj (hother.symm.trans hsymbol))
      simpa [Test.parts] using hdifferent

/-! ## Paths -/

variable {tests others : List Test} {body other : ExprId} {count : Nat} {last : Next}

theorem path_cons_iff {demand : DemandId} :
    program.Path (.demand demand) (test :: tests) last ↔
      ∃ following, program.Passes (program.demand demand) test following ∧
        program.Path following tests last :=
  ⟨fun | .cons hpasses hpath => ⟨_, hpasses, hpath⟩, fun ⟨_, hpasses, hpath⟩ ↦ .cons hpasses hpath⟩

theorem routes_cons_iff {demand : DemandId} :
    program.Routes (.demand demand) (test :: tests) body ↔
      ∃ following, program.Passes (program.demand demand) test following ∧
        program.Routes following tests body :=
  path_cons_iff

theorem not_routes_nil {demand : DemandId} : ¬program.Routes (.demand demand) [] body := nofun

theorem path_nil_iff : program.Path next [] last ↔ last = next := by
  constructor
  · intro hpath
    cases hpath
    rfl
  · rintro rfl
    exact .nil

theorem path_body_iff : program.Path (.body body) tests last ↔ tests = [] ∧ last = .body body := by
  constructor
  · intro hpath
    cases hpath
    exact ⟨rfl, rfl⟩
  · rintro ⟨rfl, rfl⟩
    exact .nil

theorem routes_body_iff : program.Routes (.body body) tests other ↔ tests = [] ∧ other = body := by
  rw [Routes, path_body_iff, Next.body.injEq]

theorem Path.append {middle : Next} (hfirst : program.Path next tests middle)
    (hsecond : program.Path middle others last) : program.Path next (tests ++ others) last := by
  induction hfirst with
  | nil => exact hsecond
  | cons hpasses _ ih => exact .cons hpasses (ih hsecond)

/-- Whoever reads some nodes has a route to a body. -/
theorem Reads.exists_routes (hreads : program.Reads arities count next) :
    ∃ tests body, program.Routes next tests body := by
  induction hreads with
  | body => exact ⟨[], _, .nil⟩
  | demand hproper _ ih =>
    obtain ⟨test, following, hpasses⟩ := exists_passes hproper
    obtain ⟨tests, body, hroutes⟩ := ih test following hpasses
    exact ⟨test :: tests, body, .cons hpasses hroutes⟩

theorem Reads.proper {demand : DemandId} (hreads : program.Reads arities count (.demand demand)) :
    (program.demand demand).IsProper program arities := by
  cases hreads with
  | demand hproper _ => exact hproper

theorem Reads.after {demand : DemandId}
    (hreads : program.Reads arities (count + 1) (.demand demand))
    (hpasses : program.Passes (program.demand demand) test following) :
    program.Reads arities (test.width program arities + count) following := by
  cases hreads with
  | demand _ hfollowing => exact hfollowing test following hpasses

theorem Reads.exists_count {demand : DemandId}
    (hreads : program.Reads arities count (.demand demand)) : ∃ rest, count = rest + 1 := by
  cases hreads
  exact ⟨_, rfl⟩

theorem Reads.eq_demand (hreads : program.Reads arities (count + 1) next) :
    ∃ demand, next = .demand demand := by
  cases hreads
  exact ⟨_, rfl⟩

theorem Reads.eq_body (hreads : program.Reads arities 0 next) : ∃ body, next = .body body := by
  cases hreads
  exact ⟨_, rfl⟩

/-- Whoever reads as many nodes as a body is a body. -/
theorem Reads.exists_body (hreads : program.Reads arities count next)
    (hother : program.Reads arities count (.body body)) : ∃ other, next = .body other := by
  cases hother
  exact hreads.eq_body

theorem Reads.exists_demand {demand : DemandId} (hreads : program.Reads arities count next)
    (hother : program.Reads arities count (.demand demand)) : ∃ other, next = .demand other := by
  obtain ⟨rest, rfl⟩ := hother.exists_count
  exact hreads.eq_demand

/-- Demands that read have been made. -/
theorem Reads.exists_layer {demand : DemandId} (hreads : program.Reads arities count (.demand demand)) :
    program.demands[demand.index]? = some (program.demand demand) := by
  have hproper := hreads.proper
  cases hlayer : program.demands[demand.index]? with
  | some layer => simp [Program.demand, hlayer]
  | none =>
    simp only [Program.demand, hlayer, Option.getD_none] at hproper
    exact hproper.elim

/-- A chain has one route. -/
theorem Chain.routes_iff (hindexed : program.symbols.Indexed) (hchain : program.Chain next tests body) :
    program.Routes next others other ↔ others = tests ∧ other = body := by
  induction hchain generalizing others with
  | body => exact routes_body_iff
  | demand hlayer _ ih =>
    cases others with
    | nil => exact ⟨nofun, nofun⟩
    | cons test others =>
      simp only [routes_cons_iff, passes_layer?_iff hindexed hlayer, List.cons.injEq]
      constructor
      · rintro ⟨_, ⟨rfl, rfl⟩, hroutes⟩
        obtain ⟨rfl, rfl⟩ := ih.1 hroutes
        exact ⟨⟨rfl, rfl⟩, rfl⟩
      · rintro ⟨⟨rfl, rfl⟩, rfl⟩
        exact ⟨_, ⟨rfl, rfl⟩, ih.2 ⟨rfl, rfl⟩⟩

end Program

/-- A clause may be joined to routes if each of them comes to ask for another constructor than the
clause.  It may also repeat a route, but then no route may differ from it in the last test only. -/
def Joinable (routes : List Test → ExprId → Prop) (tests : List Test) (body : ExprId) : Prop :=
  ∀ others other, routes others other →
    (Test.parting? others tests).isSome = true ∨
      others = tests ∧ other = body ∧
        ∀ others other, routes others other → Test.parting? others tests ≠ some []

namespace Program

open Test

variable {tests : List Test} {body : ExprId} {demand : DemandId}

/-- Repeating the only route is all right. -/
theorem Chain.joinable (hindexed : program.symbols.Indexed) (hchain : program.Chain next tests body) :
    Joinable (program.Routes next) tests body := by
  intro others other hroutes
  obtain ⟨rfl, rfl⟩ := (hchain.routes_iff hindexed).1 hroutes
  refine .inr ⟨rfl, rfl, fun others' other' hroutes' ↦ ?_⟩
  obtain ⟨rfl, rfl⟩ := (hchain.routes_iff hindexed).1 hroutes'
  simp

/-- Routes that all start with another constructor are no obstacle. -/
theorem joinable_of_parts (hparts : ∀ other following,
    program.Passes (program.demand demand) other following → other.parts test = true) :
    Joinable (program.Routes (.demand demand)) (test :: tests) body := by
  intro others other hroutes
  cases hroutes with
  | cons hpasses _ =>
    rw [parting?_of_parts (hparts _ _ hpasses)]
    exact .inl rfl

/-- A route that starts with a test of another kind is an obstacle. -/
theorem not_joinable_of_not_parts {count : Nat}
    (hreads : program.Reads arities (count + 1) (.demand demand))
    (hothers : ∀ other following, program.Passes (program.demand demand) other following →
      other ≠ test ∧ other.parts test = false) :
    ¬Joinable (program.Routes (.demand demand)) (test :: tests) body := by
  intro hjoinable
  obtain ⟨others, other, hroutes⟩ := hreads.exists_routes
  cases hroutes with
  | cons hpasses hrest =>
    obtain ⟨hne, hparts⟩ := hothers _ _ hpasses
    obtain hsome | ⟨hsame, -, -⟩ := hjoinable _ _ (.cons hpasses hrest)
    · rw [parting?_of_not_parts hne hparts] at hsome
      cases hsome
    · exact hne (List.cons.inj hsame).1

/-- A route with the same tests is an obstacle, unless the clause repeats it and nothing else is
there. -/
theorem not_joinable_of_body {count : Nat} {other : ExprId}
    (hreads : program.Reads arities (count + 1) (.demand demand))
    (hpasses : program.Passes (program.demand demand) test (.body other))
    (hdifferent : test.layer? program (.body body) ≠ some (program.demand demand)) :
    ¬Joinable (program.Routes (.demand demand)) [test] body := by
  intro hjoinable
  obtain hsome | ⟨-, rfl, hlast⟩ := hjoinable _ _ (.cons hpasses .nil)
  · simp at hsome
  · obtain hsame | ⟨rival, following, hrival, hparts⟩ := hpasses.layer?_or_parts hreads.proper
    · exact hdifferent hsame
    · obtain ⟨tests, body, hroutes⟩ := (hreads.after hrival).exists_routes
      exact hlast _ _ (.cons hrival hroutes) (parting?_of_parts hparts _ _)

/-- If a test is shared, what follows it decides. -/
theorem joinable_cons_iff (hpasses : program.Passes (program.demand demand) test next)
    (hothers : ∀ other following, program.Passes (program.demand demand) other following →
      other = test ∨ other.parts test = true) (htests : tests ≠ []) :
    Joinable (program.Routes (.demand demand)) (test :: tests) body ↔
      Joinable (program.Routes next) tests body := by
  have hsame : ∀ {others other}, program.Routes (.demand demand) (test :: others) other ↔
      program.Routes next others other := by
    intro others other
    rw [routes_cons_iff]
    constructor
    · rintro ⟨following, hfollowing, hroutes⟩
      exact hpasses.unique hfollowing ▸ hroutes
    · exact fun hroutes ↦ ⟨next, hpasses, hroutes⟩
  -- A route that starts with another test parts from the clause before its last test.
  have hrival : ∀ {others other}, program.Routes (.demand demand) others other →
      (∃ rest, others = test :: rest) ∨ parting? others (test :: tests) = some tests := by
    intro others other hroutes
    cases hroutes with
    | cons hother _ =>
      obtain rfl | hparts := hothers _ _ hother
      · exact .inl ⟨_, rfl⟩
      · exact .inr (parting?_of_parts hparts _ _)
  constructor
  · intro hjoinable others other hroutes
    obtain hparts | ⟨hsame', rfl, hlast⟩ := hjoinable _ _ (hsame.2 hroutes)
    · rw [parting?_cons_self] at hparts
      exact .inl hparts
    · refine .inr ⟨(List.cons.inj hsame').2, rfl, fun others' other' hroutes' ↦ ?_⟩
      rw [← parting?_cons_self test]
      exact hlast _ _ (hsame.2 hroutes')
  · intro hjoinable others other hroutes
    obtain ⟨rest, rfl⟩ | hparts := hrival hroutes
    · obtain hparts | ⟨rfl, rfl, hlast⟩ := hjoinable _ _ (hsame.1 hroutes)
      · rw [← parting?_cons_self test] at hparts
        exact .inl hparts
      · refine .inr ⟨rfl, rfl, fun others' other' hroutes' ↦ ?_⟩
        obtain ⟨rest', rfl⟩ | hparts := hrival hroutes'
        · rw [parting?_cons_self]
          exact hlast _ _ (hsame.1 hroutes')
        · rw [hparts]
          exact fun hnil ↦ htests (Option.some.inj hnil)
    · rw [hparts]
      exact .inl rfl

end Program

end Whence
