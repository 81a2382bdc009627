import Whence.Proofs.Clauses.Compiling
import Whence.Proofs.Clauses.Matching

/-!
# Clauses match as their patterns say

A list of clauses that the builder accepts selects, for a node that is known to the bottom, a clause
whose pattern matches the node and binds what this pattern binds.  If no pattern matches, the demand
is refused.  This stays so while the program is built further.
-/

namespace Whence

open Program Test

variable {program final later : Program} {clauses : List Clause} {demand : DemandId}

/-- The program comes from the first one by calls of the builder. -/
inductive Program.BuiltFrom (program : Program) : Program → Prop
  | refl : BuiltFrom program program
  | call {later : Program} (call : Builder.Call) : BuiltFrom program later →
      BuiltFrom program (Builder.outcome call.run later).2

theorem Program.Interned.pushExpr (hinterned : program.Interned) (expr : Expr) :
    (program.pushExpr expr).2.Interned :=
  ⟨⟨hinterned.demands, hinterned.symbols, hinterned.tags⟩, hinterned.once, hinterned.earlier,
    hinterned.named⟩

theorem Program.Interned.pushGroup (hinterned : program.Interned) (group : Group) :
    (program.pushGroup group).2.Interned :=
  ⟨⟨hinterned.demands, hinterned.symbols, hinterned.tags⟩, hinterned.once, hinterned.earlier,
    hinterned.named⟩

namespace Builder

theorem Yields.extendedBy {α : Type} {step : Builder α} {done : α → Program → Prop} {failed : Prop}
    (hyields : Yields step program done failed) : program.ExtendedBy (outcome step program).2 := by
  unfold outcome EStateM.run
  cases hstep : step program with
  | ok result final => exact (Stops.ok hyields hstep).1
  | error error final => exact (Stops.error hyields hstep).1

/-- Every call leaves a program interned and lets it grow. -/
theorem Lasts.interned (start : Program) :
    Lasts fun program ↦ program.Interned ∧ start.Grows program where
  intern name program hprogram :=
    ⟨hprogram.1.intern name, hprogram.2.trans (grows_intern program name)⟩
  declare tag arity datatype program hprogram :=
    ⟨hprogram.1.declare tag arity datatype,
      hprogram.2.trans (grows_declare program tag arity datatype)⟩
  pushExpr expr program hprogram :=
    ⟨hprogram.1.pushExpr expr, hprogram.2.trans ⟨fun _ _ ↦ rfl, id⟩⟩
  pushGroup group program hprogram :=
    ⟨hprogram.1.pushGroup group, hprogram.2.trans ⟨fun _ _ ↦ rfl, id⟩⟩
  internDemand layer hlayer program hprogram :=
    ⟨hprogram.1.internDemand fun demand hdemand ↦ absurd hdemand (hlayer demand),
      hprogram.2.trans (grows_internDemand program layer)⟩
  compileAll clauses program hprogram := by
    have hextended := (Yields.compileAll clauses hprogram.1).extendedBy
    exact ⟨hextended.interned, hprogram.2.trans hextended.toGrows⟩

end Builder

theorem Program.Built.interned (hbuilt : program.Built) : program.Interned := by
  have hboth : program.Interned ∧ Program.initial.Grows program := by
    induction hbuilt with
    | initial => exact ⟨.initial, .refl _⟩
    | call call _ ih => exact (Builder.Lasts.interned _).call call _ ih
  exact hboth.1

theorem Program.BuiltFrom.grows (hbuilt : program.BuiltFrom later) (hinterned : program.Interned) :
    later.Interned ∧ program.Grows later := by
  induction hbuilt with
  | refl => exact ⟨hinterned, .refl _⟩
  | call call _ ih => exact (Builder.Lasts.interned _).call call _ ih

/-- The builder has compiled the clauses of a function or of a match to the demand. -/
inductive Builder.Accepts (program : Program) (clauses : List Clause) (demand : DemandId)
    (final : Program) : Prop
  | function {expr : ExprId} : Builder.function clauses program = .ok expr final →
      final.expr expr = .function demand → Accepts program clauses demand final
  | matching {scrutinee expr : ExprId} :
      Builder.matching scrutinee clauses program = .ok expr final →
      final.expr expr = .matching scrutinee demand → Accepts program clauses demand final

/-- What matching a node against the demand of the clauses comes to.  A clause is selected whose
pattern matches, and others that match have the same body and bindings; or no pattern matches. -/
inductive Clause.Selects (program : Program) (store : Store) (clauses : List Clause) (node : NodeId) :
    EStateM.Result Error Machine Outcome → Prop
  | selected {clause : Clause} {bindings : Bindings} {outcome : Outcome} {machine : Machine} :
      clause ∈ clauses → clause.pattern.bindings? program store node = some bindings →
      outcome.node = node → outcome.next = .body clause.body →
      Spells program (machine.store.envs.entries outcome.env) bindings.reverse →
      (∀ other ∈ clauses, ∀ found, other.pattern.bindings? program store node = some found →
        other.body = clause.body ∧ found = bindings) →
      Selects program store clauses node (.ok outcome machine)
  | refused {expected found : String} {machine : Machine} :
      (∀ clause ∈ clauses, clause.pattern.bindings? program store node = none) →
      Selects program store clauses node (.error (.demandMismatch expected found) machine)

namespace Builder

open Clause

theorem expr_pushExpr (program : Program) (expr : Expr) :
    (program.pushExpr expr).2.expr (program.pushExpr expr).1 = expr := by
  simp [Program.expr, Program.pushExpr]

/-- A call that accepts clauses has compiled them and adds one expression. -/
theorem Accepts.compileAll (haccepts : Accepts program clauses demand final) :
    ∃ middle expr, Clause.compileAll clauses program = .ok demand middle ∧
      final = (middle.pushExpr expr).2 := by
  cases haccepts with
  | function hrun hexpr =>
    obtain ⟨found, middle, hcompile, hpush⟩ := run_bind_eq_ok hrun
    cases hpush
    cases (expr_pushExpr middle (.function found)).symm.trans hexpr
    exact ⟨middle, _, hcompile, rfl⟩
  | @matching scrutinee _ hrun hexpr =>
    obtain ⟨found, middle, hcompile, hpush⟩ := run_bind_eq_ok hrun
    cases hpush
    cases (expr_pushExpr middle (.matching scrutinee found)).symm.trans hexpr
    exact ⟨middle, _, hcompile, rfl⟩

/-- Clauses that have been compiled make a function. -/
theorem accepts_of_compileAll {middle : Program}
    (hcompile : Clause.compileAll clauses program = .ok demand middle) :
    Accepts program clauses demand (middle.pushExpr (.function demand)).2 := by
  refine .function ?_ (expr_pushExpr middle (.function demand))
  change EStateM.bind _ _ program = _
  unfold EStateM.bind
  rw [hcompile]
  rfl

/-- Accepted clauses are admissible, and the demand lists them. -/
theorem Accepts.lists (hinterned : program.Interned)
    (haccepts : Accepts program clauses demand final) :
    program.ExtendedBy final ∧ Admissible program clauses ∧
      Lists program.arity? clauses demand final := by
  obtain ⟨middle, expr, hcompile, rfl⟩ := haccepts.compileAll
  obtain ⟨hmiddle, hadmissible, hlists⟩ := Stops.ok (Yields.compileAll clauses hinterned) hcompile
  have hgrows : middle.Grows (middle.pushExpr expr).2 := ⟨fun _ _ ↦ rfl, id⟩
  refine ⟨⟨hmiddle.toGrows.trans hgrows, hmiddle.interned.pushExpr expr, hmiddle.arities⟩,
    hadmissible, hgrows.reads hmiddle.indexed hlists.reads, fun tests body ↦ ?_⟩
  rw [hgrows.routes_iff hmiddle.indexed hlists.reads, hlists.routes]

end Builder

theorem Clause.Lists.selects {arities : Symbol → Option Nat}
    (hlists : Clause.Lists arities clauses demand program) (hinterned : program.Interned)
    (hfits : ∀ clause ∈ clauses, clause.pattern.Fits program arities) (reach : Nat)
    (evaluate : Evaluator) {machine : Machine} (henvs : machine.store.envs.Canonical) {node : NodeId}
    (hcomplete : machine.store.Complete arities node) :
    Clause.Selects program machine.store clauses node
      (Matching.node program reach evaluate node demand machine) := by
  have hdecides := Matching.node_decides hinterned reach evaluate henvs hcomplete hlists.reads
  -- A pattern matches if its tests are walked on the node.
  have hwalks : ∀ clause ∈ clauses, ∀ bindings,
      clause.pattern.bindings? program machine.store node = some bindings ↔
        walk? program machine.store clause.tests [node] = some (bindings, []) :=
    fun clause hclause bindings ↦ Pattern.bindings?_eq_some_iff (hfits clause hclause) hcomplete
  have hroutes : ∀ clause ∈ clauses, program.Routes (.demand demand) clause.tests clause.body :=
    fun clause hclause ↦ (hlists.routes _ _).2 ⟨clause, hclause, rfl, rfl⟩
  generalize Matching.node program reach evaluate node demand machine = result at hdecides ⊢
  cases hdecides with
  | @ok outcome envs front bindings entries _ _ _ hnode hpath hwalk hentries hspells =>
    have hreads : program.Reads arities ([node].length + 0) (.demand demand) := hlists.reads
    obtain ⟨body, hbody⟩ := (hpath.reads hreads (by simpa using hcomplete) hwalk).eq_body
    rw [hbody] at hpath
    obtain ⟨clause, hclause, rfl, rfl⟩ := (hlists.routes _ _).1 hpath
    rw [List.append_nil] at hentries
    refine .selected hclause ((hwalks clause hclause bindings).2 hwalk) hnode hbody
      (hentries ▸ hspells) fun other hother found hfound ↦ ?_
    have hwalk' := (hwalks other hother found).1 hfound
    have hsome : (walk? program machine.store other.tests ([node] ++ [])).isSome := by
      rw [List.append_nil, hwalk']
      rfl
    obtain ⟨back, htests, hback, -⟩ :=
      hpath.extends_of_walk hinterned.symbols hwalk (hroutes other hother) hsome
    obtain ⟨rfl, hsame⟩ := routes_body_iff.1 hback
    rw [htests, List.append_nil, hwalk] at hwalk'
    cases hwalk'
    exact ⟨hsame, rfl⟩
  | refused hnone =>
    refine .refused fun clause hclause ↦ Option.eq_none_iff_forall_ne_some.2 fun bindings hfound ↦ ?_
    have hwalk := (hwalks clause hclause bindings).1 hfound
    have hnone := hnone _ _ [] (hroutes clause hclause)
    rw [List.append_nil, hwalk] at hnone
    cases hnone

/-- Accepted clauses are matched as their patterns say while the program is built further. -/
theorem Builder.Accepts.selects (haccepts : Builder.Accepts program clauses demand final)
    (hinterned : program.Interned) (hlater : final.BuiltFrom later) (reach : Nat)
    (evaluate : Evaluator) {machine : Machine} {node : NodeId}
    (henvs : machine.store.envs.Canonical)
    (hcomplete : machine.store.Complete program.arity? node) :
    Clause.Selects later machine.store clauses node
      (Matching.node later reach evaluate node demand machine) := by
  obtain ⟨hextended, hadmissible, hlists⟩ := haccepts.lists hinterned
  obtain ⟨hinterned', hgrows⟩ := hlater.grows hextended.interned
  have hlists' : Clause.Lists program.arity? clauses demand later := by
    refine ⟨hgrows.reads hinterned'.symbols hlists.reads, fun tests body ↦ ?_⟩
    rw [hgrows.routes_iff hinterned'.symbols hlists.reads, hlists.routes]
  refine hlists'.selects hinterned' (fun clause hclause ↦ ?_) reach evaluate henvs hcomplete
  rw [Pattern.fits_iff hinterned (hextended.toGrows.trans hgrows) hinterned'.symbols]
  exact hadmissible.2.fits clause hclause

/-- Clauses are compiled if they are admissible, and otherwise there is an error; the bound on how
far two demands are joined has no part in it.  After they have been accepted for a function or a
match, and while the program is built further, matching a complete node against their demand selects
a clause whose pattern matches, whatever evaluation would do. -/
theorem Program.Built.clauses_select (hbuilt : program.Built) (clauses : List Clause) :
    ((Clause.Admissible program clauses ∧
        ∃ demand middle, Clause.compileAll clauses program = .ok demand middle) ∨
      ¬Clause.Admissible program clauses ∧
        ∃ error middle, Clause.compileAll clauses program = .error error middle) ∧
    (∀ extra, Clause.compileDeeper extra clauses program = Clause.compileAll clauses program) ∧
    ∀ demand final, Builder.Accepts program clauses demand final →
      ∀ later, final.BuiltFrom later → ∀ reach evaluate machine node,
        machine.store.envs.Canonical → machine.store.Complete final.arity? node →
          Clause.Selects later machine.store clauses node
            (Matching.node later reach evaluate node demand machine) := by
  have hinterned := hbuilt.interned
  refine ⟨?_, fun extra ↦ Builder.Yields.compileDeeper_eq extra clauses hinterned, ?_⟩
  · have hyields := Builder.Yields.compileAll clauses hinterned
    cases hrun : Clause.compileAll clauses program with
    | ok demand middle => exact .inl ⟨(Stops.ok hyields hrun).2.1, demand, middle, rfl⟩
    | error error middle => exact .inr ⟨(Stops.error hyields hrun).2, error, middle, rfl⟩
  · intro demand final haccepts later hlater reach evaluate machine node henvs hcomplete
    rw [(haccepts.lists hinterned).1.arities] at hcomplete
    exact haccepts.selects hinterned hlater reach evaluate henvs hcomplete

/-- Clauses are accepted if and only if they are admissible. -/
theorem Program.Built.accepts_iff (hbuilt : program.Built) :
    (∃ demand final, Builder.Accepts program clauses demand final) ↔
      Clause.Admissible program clauses := by
  constructor
  · rintro ⟨demand, final, haccepts⟩
    exact (haccepts.lists hbuilt.interned).2.1
  · intro hadmissible
    have hyields := Builder.Yields.compileAll clauses hbuilt.interned
    cases hrun : Clause.compileAll clauses program with
    | ok demand middle => exact ⟨demand, _, Builder.accepts_of_compileAll hrun⟩
    | error error middle => exact absurd hadmissible (Stops.error hyields hrun).2

/-! ## Clauses on truth values -/

namespace Program

theorem declareAll_grows (program : Program) (constructors : List (String × Nat × String)) :
    program.Grows (program.declareAll constructors) := by
  induction constructors generalizing program with
  | nil => exact .refl program
  | cons first rest ih => exact (grows_declare program _ _ _).trans (ih _)

/-- The names of the constructors that evaluation uses are found at their places. -/
theorem symbol?_declareAll (names : List String) (hsymbols : program.symbols =
      SymbolTable.empty.internAll (["True", "False", "Nil", "Cons", "Pair"] ++ names))
    (constructors : List (String × Nat × String)) {position : Nat} {name : String}
    (hposition : ["True", "False", "Nil", "Cons", "Pair"][position]? = some name) :
    (program.declareAll constructors).symbol? name = some ⟨position⟩ := by
  refine (declareAll_grows program constructors).symbol ?_
  rw [symbol?, hsymbols]
  exact symbol?_builtin names hposition

theorem initial_symbol? {position : Nat} {name : String}
    (hposition : ["True", "False", "Nil", "Cons", "Pair"][position]? = some name) :
    Program.initial.symbol? name = some ⟨position⟩ := by
  obtain ⟨-, hsymbols⟩ := (Tabled.ofNames initialNames).internDemands initialDemands
  exact symbol?_declareAll _ hsymbols initialConstructors hposition

end Program

namespace Clause

/-- A clause for each truth value. -/
def onTruth : List Clause := [⟨.constructor "True" [], ⟨0⟩⟩, ⟨.constructor "False" [], ⟨1⟩⟩]

theorem fits_builtin (position : Nat) {tag : String}
    (hposition : ["True", "False", "Nil", "Cons", "Pair"][position]? = some tag)
    (hentry : (⟨position⟩, 0) ∈ builtinArities) :
    (Pattern.constructor tag []).Fits twoTexts twoTexts.arity? :=
  ⟨⟨⟨position⟩, initial_symbol? hposition, Orderly.initial.builtins _ hentry⟩, trivial⟩

theorem onTruth_admissible : Admissible twoTexts onTruth := by
  refine ⟨List.cons_ne_nil _ _, fits_builtin 0 rfl (by decide), ?_, fits_builtin 1 rfl (by decide),
    ?_, trivial⟩
  · rintro others other ⟨clause, hclause, -⟩
    cases hclause
  · rintro others other ⟨clause, hclause, rfl, rfl⟩
    cases List.mem_singleton.1 hclause
    exact .inl (by decide)

end Clause

/-- A store with one input, which is true. -/
def Store.oneTruth : Store :=
  oneInput {} ⟨[(.root, .of .given (.constructor .trueTag []))], []⟩

theorem Store.oneTruth_complete {arities : Symbol → Option Nat}
    (harity : arities .trueTag = some 0) : oneTruth.Complete arities ⟨0⟩ := by
  intro part hpath
  have hvalue : oneTruth.value? ⟨0⟩ = some (.constructor .trueTag []) := rfl
  cases hpath.cases_head with
  | inl hsame =>
    subst hsame
    refine ⟨_, hvalue, fun arity harity' ↦ ?_⟩
    rw [harity] at harity'
    exact Option.some.inj harity'
  | inr hpart =>
    obtain ⟨_, ⟨value, hvalue', hmem⟩, -⟩ := hpart
    rw [hvalue] at hvalue'
    cases hvalue'
    cases hmem

theorem Program.clauses_select_onTruth : ∃ demand final,
    Builder.Accepts twoTexts Clause.onTruth demand final ∧ ∀ evaluate,
      Clause.Selects final Store.oneTruth Clause.onTruth ⟨0⟩
        (Matching.node final 0 evaluate ⟨0⟩ demand ⟨Store.oneTruth, {}⟩) := by
  obtain ⟨demand, final, haccepts⟩ := twoTexts_built.accepts_iff.2 Clause.onTruth_admissible
  have harity : final.arity? .trueTag = some 0 := by
    rw [(haccepts.lists twoTexts_built.interned).1.arities]
    exact Orderly.initial.builtins (.trueTag, 0) (by decide)
  exact ⟨demand, final, haccepts, fun evaluate ↦ (twoTexts_built.clauses_select Clause.onTruth).2.2
    demand final haccepts final .refl 0 evaluate ⟨Store.oneTruth, {}⟩ ⟨0⟩ .default
    (Store.oneTruth_complete harity)⟩

end Whence
