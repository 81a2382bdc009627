import Whence.Proofs.Clauses.Joining

/-!
# Compiling clauses

Compiling a pattern makes a chain of its tests, if the pattern fits the constructors that are
declared, and fails otherwise.  A list of clauses is compiled if it is not empty, all its patterns
fit and each clause may be joined to those before it.  Then the routes of the demand are the clauses.
-/

namespace Whence

open Program Builder

variable {program middle final : Program} {arities : Symbol → Option Nat} {layer : Demand}
  {test : Test} {next following : Next} {tests : List Test} {body : ExprId} {count : Nat}

namespace Program

/-- The clause may be joined to what follows in the first program, and from `joined` lead in the
second one the routes that are there already and the one of the clause. -/
structure Joined (program final : Program) (arities : Symbol → Option Nat) (count : Nat) (left : Next)
    (tests : List Test) (body : ExprId) (joined : Next) : Prop where
  joinable : Joinable (program.Routes left) tests body
  reads : final.Reads arities count joined
  routes : ∀ others other, final.Routes joined others other ↔
    program.Routes left others other ∨ others = tests ∧ other = body

/-- If the clause goes on from a test with what has been joined already, then the replaced layer is
the joined demand. -/
theorem joined_of_replaces {left demand : DemandId} {joined : Next}
    (hleft : program.Reads arities (count + 1) (.demand left)) (hfirst : program.Grows middle)
    (hreplaces : middle.Replaces arities (program.demand left) layer test joined)
    (hreads : middle.Reads arities (test.width middle arities + count) joined)
    (hroutes : ∀ others other, middle.Routes joined others other ↔
      program.Routes (.demand left) (test :: others) other ∨ others = tests ∧ other = body)
    (hjoinable : Joinable (program.Routes (.demand left)) (test :: tests) body)
    (hmiddle : middle.symbols.Indexed) (hsecond : middle.Grows final)
    (hfinal : final.symbols.Indexed) (hdemand : final.demand demand = layer) :
    Joined program final arities (count + 1) (.demand left) (test :: tests) body (.demand demand) := by
  have hpasses : ∀ other after, final.Passes layer other after ↔
      if other = test then after = joined else program.Passes (program.demand left) other after := by
    intro other after
    rw [hsecond.passes_iff hfinal hreplaces.proper, hreplaces.passes,
      hfirst.passes_iff hmiddle hleft.proper]
  constructor
  case joinable => exact hjoinable
  case reads =>
    refine .demand (hdemand ▸ hsecond.isProper hreplaces.proper) fun other after hother ↦ ?_
    rw [hdemand] at hother
    have hmade := (hsecond.passes_iff hfinal hreplaces.proper).1 hother
    rw [hsecond.width_eq hmade]
    rw [hpasses] at hother
    split at hother
    case isTrue hsame =>
      subst hsame hother
      exact hsecond.reads hfinal hreads
    case isFalse =>
      rw [hfirst.width_eq hother]
      exact (hfirst.trans hsecond).reads hfinal (hleft.after hother)
  case routes =>
    intro others other
    cases others with
    | nil => simp [not_routes_nil]
    | cons first others =>
      simp only [routes_cons_iff, hdemand, hpasses]
      by_cases hsame : first = test
      · subst hsame
        simp only [if_true, exists_eq_left, hsecond.path_iff hfinal hreads, hroutes,
          routes_cons_iff, List.cons.injEq, true_and]
      · have hrest : ∀ after, program.Passes (program.demand left) first after →
            (final.Routes after others other ↔ program.Routes after others other) :=
          fun after hafter ↦ (hfirst.trans hsecond).path_iff hfinal (hleft.after hafter)
        simp only [List.cons.injEq, hsame, if_false, false_and, or_false]
        exact exists_congr fun after ↦ and_congr_right (hrest after)

end Program

namespace Builder.Yields

/-- The replaced layer is interned after what follows the test has been joined. -/
theorem internReplaced {left : DemandId} {joined : Next} {failed : Prop}
    (hleft : program.Reads arities (count + 1) (.demand left)) (hextended : program.ExtendedBy middle)
    (hreplaces : middle.Replaces arities (program.demand left) layer test joined)
    (hreads : middle.Reads arities (test.width middle arities + count) joined)
    (hroutes : ∀ others other, middle.Routes joined others other ↔
      program.Routes (.demand left) (test :: others) other ∨ others = tests ∧ other = body)
    (hjoinable : Joinable (program.Routes (.demand left)) (test :: tests) body) :
    Yields (Builder.internDemand layer) middle (fun demand final ↦
      Joined program final arities (count + 1) (.demand left) (test :: tests) body (.demand demand))
      failed := by
  have hinterned := hextended.interned
  refine mono (internDemand hinterned fun demand hdemand ↦ ?_) (fun hfinal hdemand ↦ ?_) False.elim
  · obtain rfl | hdemand := hreplaces.nexts _ hdemand
    · exact (Array.getElem?_eq_some_iff.1 hreads.exists_layer).1
    · have hlayer := (hextended.reads hinterned.symbols hleft).exists_layer
      rw [hextended.demand_eq_of_proper hleft.proper] at hlayer
      exact Nat.lt_trans (hinterned.earlier hlayer hdemand)
        (Array.getElem?_eq_some_iff.1 hlayer).1
  · exact joined_of_replaces hleft hextended.toGrows hreplaces hreads hroutes hjoinable
      hinterned.symbols hfinal.toGrows hfinal.indexed hdemand

theorem joinLayers (layers : Nat) {left right : DemandId} (hinterned : program.Interned)
    (hleft : program.Reads arities count (.demand left))
    (hright : program.Reads arities count (.demand right))
    (hchain : program.Chain (.demand right) tests body) (hindex : left.index < layers) :
    Yields (Demand.joinLayers layers left right) program
      (fun joined final ↦ Joined program final arities count (.demand left) tests body (.demand joined))
      (¬Joinable (program.Routes (.demand left)) tests body) := by
  induction layers generalizing program count left right tests with
  | zero => exact absurd hindex (Nat.not_lt_zero _)
  | succ layers ih =>
    unfold Demand.joinLayers
    split
    case isTrue hsame =>
      subst hsame
      refine of_pure hinterned ⟨hchain.joinable hinterned.symbols, hleft, fun others other ↦ ?_⟩
      rw [hchain.routes_iff hinterned.symbols, or_self]
    case isFalse hne =>
      obtain ⟨rest, rfl⟩ := hleft.exists_count
      refine of_get ?_
      cases hchain with
      | @demand _ test following tests body hlayer hrest =>
        have hfollowing : program.Reads arities (test.width program arities + rest) following :=
          hright.after ((passes_layer?_iff hinterned.symbols hlayer).2 ⟨rfl, rfl⟩)
        cases joinsLayer hinterned.symbols hleft.proper hright.proper hlayer with
        | refused hothers hjoin =>
          rw [hjoin]
          exact of_throw hinterned (not_joinable_of_not_parts hleft hothers)
        | added hothers hjoin hreplaces =>
          rw [hjoin, pure_bind]
          refine internReplaced hleft (.refl hinterned) hreplaces hfollowing (fun others other ↦ ?_)
            (joinable_of_parts hothers)
          rw [hrest.routes_iff hinterned.symbols, routes_cons_iff]
          refine (or_iff_right ?_).symm
          rintro ⟨after, hpasses, -⟩
          exact Test.ne_of_parts (hothers _ _ hpasses) rfl
        | @shared next rebuild hpasses hothers hjoin hreplaces =>
          have hnext : program.Reads arities (test.width program arities + rest) next :=
            hleft.after hpasses
          rw [hjoin]
          cases hrest with
          | body =>
            obtain ⟨other, rfl⟩ := hnext.exists_body hfollowing
            refine of_throw hinterned (not_joinable_of_body hleft hpasses fun hsame ↦ hne ?_)
            have hlayers : program.demand left = program.demand right :=
              Option.some.inj (hsame.symm.trans hlayer)
            exact hinterned.eq_of_layer_eq hleft.exists_layer (hlayers ▸ hright.exists_layer)
          | @demand following test' after tests body hlayer' hrest =>
            obtain ⟨next, rfl⟩ := hnext.exists_demand hfollowing
            have hearlier : next.index < layers := by
              have hnext := hinterned.earlier hleft.exists_layer hpasses.mem_nexts
              omega
            have hcons : Joinable (program.Routes (.demand left)) (test :: test' :: tests) body ↔
                Joinable (program.Routes (.demand next)) (test' :: tests) body :=
              joinable_cons_iff hpasses hothers (List.cons_ne_nil test' tests)
            have hjoined : Yields (Demand.joinNext (Demand.joinLayers layers) (.demand next)
                (.demand following)) program (fun joined final ↦
                  Joined program final arities (test.width program arities + rest) (.demand next)
                    (test' :: tests) body joined)
                (¬Joinable (program.Routes (.demand next)) (test' :: tests) body) :=
              bind (ih hinterned hnext hfollowing (.demand hlayer' hrest) hearlier)
                (fun hextended hjoined ↦ of_pure hextended.interned hjoined) id
            rw [bind_map_left]
            refine bind hjoined (fun {joined middle} hextended hjoined ↦ ?_) (mt hcons.1)
            refine internReplaced hleft hextended
              (hreplaces joined hextended.toGrows hextended.indexed) ?_ (fun others other ↦ ?_)
              (hcons.2 hjoined.joinable)
            · rw [hextended.width_eq hpasses]
              exact hjoined.reads
            · rw [hjoined.routes, routes_cons_iff]
              refine or_congr_left ⟨fun hroutes ↦ ⟨_, hpasses, hroutes⟩, ?_⟩
              rintro ⟨after, hafter, hroutes⟩
              exact hpasses.unique hafter ▸ hroutes

end Builder.Yields

/-- Demands are joined to their end, so that more layers make no difference. -/
theorem Demand.joinLayers_eq (layers more : Nat) {left right : DemandId}
    (hinterned : program.Interned) (hleft : program.Reads arities count (.demand left))
    (hright : program.Reads arities count (.demand right))
    (hchain : program.Chain (.demand right) tests body) (hlayers : left.index < layers)
    (hmore : left.index < more) :
    joinLayers layers left right program = joinLayers more left right program := by
  induction layers generalizing more program count left right tests with
  | zero => exact absurd hlayers (Nat.not_lt_zero _)
  | succ layers ih =>
    obtain ⟨more, rfl⟩ := Nat.exists_eq_add_one_of_ne_zero (Nat.ne_zero_of_lt hmore)
    unfold joinLayers
    split
    case isTrue => rfl
    case isFalse =>
      obtain ⟨rest, rfl⟩ := hleft.exists_count
      cases hchain with
      | @demand _ test following tests body hlayer hrest =>
        have hfollowing : program.Reads arities (test.width program arities + rest) following :=
          hright.after ((passes_layer?_iff hinterned.symbols hlayer).2 ⟨rfl, rfl⟩)
        have hjoins := joinsLayer hinterned.symbols hleft.proper hright.proper hlayer
        refine run_bind_congr (hjoins.congr fun next hpasses ↦ ?_) _
        have hnext : program.Reads arities (test.width program arities + rest) next :=
          hleft.after hpasses
        cases hrest with
        | body => cases next <;> rfl
        | @demand following test' after tests body hlayer' hrest =>
          obtain ⟨next, rfl⟩ := hnext.exists_demand hfollowing
          have hearlier := hinterned.earlier hleft.exists_layer hpasses.mem_nexts
          exact run_bind_congr (ih more hinterned hnext hfollowing (.demand hlayer' hrest) (by omega)
            (by omega)) _

/-! ## Compiling a pattern -/

namespace Pattern

mutual

/-- Whether a pattern fits the constructors of a program does not change when the program grows. -/
theorem fits_iff (hinterned : program.Interned) (hgrows : program.Grows final)
    (hindexed : final.symbols.Indexed) (pattern : Pattern) :
    pattern.Fits final program.arity? ↔ pattern.Fits program program.arity? := by
  cases pattern with
  | constructor tag args =>
    refine and_congr ?_ (fitsAll_iff hinterned hgrows hindexed args)
    refine exists_congr fun symbol ↦ and_congr_left fun harity ↦ ⟨fun hsymbol ↦ ?_, hgrows.symbol⟩
    obtain ⟨name, hname⟩ := hinterned.named harity
    rwa [hindexed.injective hsymbol (hgrows.symbol hname)]
  | _ => exact Iff.rfl

theorem fitsAll_iff (hinterned : program.Interned) (hgrows : program.Grows final)
    (hindexed : final.symbols.Indexed) (patterns : List Pattern) :
    FitsAll final program.arity? patterns ↔ FitsAll program program.arity? patterns := by
  cases patterns with
  | nil => exact Iff.rfl
  | cons pattern patterns =>
    exact and_congr (fits_iff hinterned hgrows hindexed pattern)
      (fitsAll_iff hinterned hgrows hindexed patterns)

end

end Pattern

namespace Builder.Yields

theorem constructorOf (hinterned : program.Interned) (tag : String) (count : Nat) :
    Yields (Builder.constructorOf tag count) program
      (fun constructor _ ↦ program.symbol? tag = some constructor.tag ∧
        program.arity? constructor.tag = some count)
      (¬∃ symbol, program.symbol? tag = some symbol ∧ program.arity? symbol = some count) := by
  refine of_get ?_
  split
  case h_1 hnone =>
    refine of_throw hinterned ?_
    rintro ⟨symbol, hsymbol, harity⟩
    rw [constructorNamed?, hsymbol] at hnone
    have hnone : program.constructor? symbol = none := hnone
    simp [arity?, hnone] at harity
  case h_2 constructor hconstructor =>
    obtain ⟨symbol, hsymbol, hfound⟩ := Option.bind_eq_some_iff.1 hconstructor
    have htag : constructor.tag = symbol := by simpa using List.find?_some hfound
    have harity : program.arity? symbol = some constructor.arity := by rw [arity?, hfound]; rfl
    split
    case isTrue hcount => exact of_pure hinterned ⟨htag ▸ hsymbol, by rw [htag, harity, hcount]⟩
    case isFalse hcount =>
      refine of_throw hinterned ?_
      rintro ⟨other, hother, harity'⟩
      rw [hsymbol] at hother
      cases hother
      rw [harity] at harity'
      exact hcount (Option.some.inj harity')

/-- A test is put in front of a chain. -/
theorem internTest (test : Test) {failed : Prop} (hinterned : program.Interned)
    (hlayer : test.layer? program next = some layer) (hproper : layer.IsProper program arities)
    (hreads : program.Reads arities (test.width program arities + count) next)
    (hchain : program.Chain next tests body) :
    Yields (Builder.internDemand layer) program (fun demand final ↦
      final.Reads arities (count + 1) (.demand demand) ∧
        final.Chain (.demand demand) (test :: tests) body) failed := by
  refine mono (internDemand hinterned fun demand hdemand ↦ ?_)
    (fun {demand final} hfinal hdemand ↦ ⟨?_, ?_⟩) False.elim
  · rw [nexts_of_layer? hlayer] at hdemand
    cases List.mem_singleton.1 hdemand
    exact (Array.getElem?_eq_some_iff.1 hreads.exists_layer).1
  · refine .demand (hdemand ▸ hfinal.isProper hproper) fun other after hpasses ↦ ?_
    rw [hdemand, hfinal.passes_iff hfinal.indexed hproper] at hpasses
    obtain ⟨rfl, rfl⟩ := (passes_layer?_iff hinterned.symbols hlayer).1 hpasses
    rw [hfinal.width_eq hpasses]
    exact hfinal.reads hfinal.indexed hreads
  · exact .demand (hdemand ▸ hfinal.layer? hlayer) (hfinal.chain hchain)

/-- What compiling patterns in front of a chain comes to. -/
abbrev Compiles (arities : Symbol → Option Nat) (count : Nat) (tests : List Test) (body : ExprId)
    (first : Next) (final : Program) : Prop :=
  final.Reads arities count first ∧ final.Chain first tests body

theorem compileName (hinterned : program.Interned) (hreads : program.Reads arities count next)
    (hchain : program.Chain next tests body) (name : String) {failed : Prop} :
    Yields (Builder.intern name >>= fun symbol ↦ Builder.internDemand (.bind symbol next)) program
      (fun demand ↦ Compiles arities (count + 1) (.bind name :: tests) body (.demand demand))
      failed := by
  refine bind (intern hinterned name) (fun {symbol middle} hextended hsymbol ↦ ?_) False.elim
  refine internTest (.bind name) hextended.interned ?_ ⟨name, hsymbol⟩ ?_ (hextended.chain hchain)
  · rw [Test.layer?, hsymbol, Option.map_some]
  · rw [show Test.width middle arities (.bind name) = 0 from rfl, Nat.zero_add]
    exact hextended.reads hextended.indexed hreads

mutual

theorem compile {program : Program} (pattern : Pattern) (hinterned : program.Interned)
    {next : Next} {count : Nat} {tests : List Test}
    (hreads : program.Reads program.arity? count next) (hchain : program.Chain next tests body) :
    Yields (pattern.compile next) program (fun demand final ↦ pattern.Fits program program.arity? ∧
        Compiles program.arity? (count + 1) (pattern.tests ++ tests) body (.demand demand) final)
      (¬pattern.Fits program program.arity?) := by
  have hsame : program.Reads program.arity? (0 + count) next := (Nat.zero_add count).symm ▸ hreads
  cases pattern with
  | bind name =>
    exact mono (compileName hinterned hreads hchain name) (fun _ hdemand ↦ ⟨trivial, hdemand⟩)
      False.elim
  | wild =>
    exact mono (compileName hinterned hreads hchain "_") (fun _ hdemand ↦ ⟨trivial, hdemand⟩)
      False.elim
  | number =>
    exact mono (internTest .number hinterned rfl trivial hsame hchain)
      (fun _ hdemand ↦ ⟨trivial, hdemand⟩) False.elim
  | text =>
    exact mono (internTest .text hinterned rfl trivial hsame hchain)
      (fun _ hdemand ↦ ⟨trivial, hdemand⟩) False.elim
  | function =>
    exact mono (internTest .function hinterned rfl trivial hsame hchain)
      (fun _ hdemand ↦ ⟨trivial, hdemand⟩) False.elim
  | constructor tag args =>
    refine bind (constructorOf hinterned tag args.length)
      (fun {constructor middle} hmiddle hfound ↦ ?_) (mt And.left)
    have hargs := compileArgs args hmiddle.interned
      (hmiddle.arities ▸ hmiddle.reads hmiddle.indexed hreads) (hmiddle.chain hchain)
    rw [hmiddle.arities, Pattern.fitsAll_iff hinterned hmiddle.toGrows hmiddle.indexed] at hargs
    refine bind hargs (fun {first last} hlast hcompiles ↦ ?_) (mt And.right)
    obtain ⟨hsymbol, harity⟩ := hfound
    obtain ⟨hfits, hfirst, hrest⟩ := hcompiles
    have hlater : last.symbol? tag = some constructor.tag :=
      hlast.symbol (hmiddle.symbol hsymbol)
    have hwidth : Test.width last program.arity? (.constructor tag) = args.length := by
      simp [Test.width, hlater, harity]
    refine mono (internTest (.constructor tag) hlast.interned (by rw [Test.layer?, hlater]; rfl)
      ⟨List.cons_ne_nil _ _, List.nodup_singleton _, fun case hcase ↦ ?_⟩ (hwidth ▸ hfirst) hrest)
      (fun _ hdemand ↦ ⟨⟨⟨constructor.tag, hsymbol, harity⟩, hfits⟩, hdemand⟩) False.elim
    cases List.mem_singleton.1 hcase
    exact ⟨⟨tag, hlater⟩, by rw [harity]; rfl⟩

theorem compileArgs {program : Program} (patterns : List Pattern) (hinterned : program.Interned)
    {next : Next} {count : Nat} {tests : List Test}
    (hreads : program.Reads program.arity? count next) (hchain : program.Chain next tests body) :
    Yields (Pattern.compileArgs patterns next) program (fun first final ↦
        Pattern.FitsAll program program.arity? patterns ∧ Compiles program.arity?
          (patterns.length + count) (Pattern.testsAll patterns ++ tests) body first final)
      (¬Pattern.FitsAll program program.arity? patterns) := by
  cases patterns with
  | nil =>
    refine of_pure hinterned ⟨trivial, ?_, hchain⟩
    rw [List.length_nil, Nat.zero_add]
    exact hreads
  | cons arg args =>
    refine bind (compileArgs args hinterned hreads hchain)
      (fun {following middle} hmiddle hcompiles ↦ ?_) (mt And.right)
    obtain ⟨hargs, hfollowing, hrest⟩ := hcompiles
    have harg := compile arg hmiddle.interned (hmiddle.arities ▸ hfollowing) hrest
    rw [hmiddle.arities, Pattern.fits_iff hinterned hmiddle.toGrows hmiddle.indexed] at harg
    refine bind harg (fun {demand last} hlast hcompiles ↦ ?_) (mt And.left)
    obtain ⟨hfits, hdemand, hchain⟩ := hcompiles
    refine of_pure hlast.interned ⟨⟨hfits, hargs⟩, ?_, ?_⟩
    · rw [List.length_cons, Nat.add_right_comm]
      exact hdemand
    · rw [Pattern.testsAll, List.append_assoc]
      exact hchain

end

end Builder.Yields

/-! ## Compiling several clauses -/

namespace Clause

/-- One of the clauses makes these tests and selects this body. -/
def Listed (clauses : List Clause) (tests : List Test) (body : ExprId) : Prop :=
  ∃ clause ∈ clauses, clause.tests = tests ∧ clause.body = body

/-- Each of the later clauses fits and may be joined to those before it. -/
def Follow (program : Program) : List Clause → List Clause → Prop
  | _, [] => True
  | before, clause :: after =>
    clause.pattern.Fits program program.arity? ∧
      Joinable (Listed before) clause.tests clause.body ∧ Follow program (before ++ [clause]) after

/-- The clauses can be compiled. -/
def Admissible (program : Program) (clauses : List Clause) : Prop :=
  clauses ≠ [] ∧ Follow program [] clauses

/-- The demand reads one node, and its routes are the clauses. -/
structure Lists (arities : Symbol → Option Nat) (clauses : List Clause) (demand : DemandId)
    (program : Program) : Prop where
  reads : program.Reads arities 1 (.demand demand)
  routes : ∀ tests body, program.Routes (.demand demand) tests body ↔ Listed clauses tests body

/-- Joins one more clause, and `extra` more layers than the demand can have. -/
def joinDeeper (extra : Nat) (joined : DemandId) (clause : Clause) : Builder DemandId := do
  Demand.joinLayers (joined.index + 1 + extra) joined (← clause.compile)

/-- Compiles clauses and joins more layers than there can be. -/
def compileDeeper (extra : Nat) : List Clause → Builder DemandId
  | [] => throw (.overlappingClauses .noClauses)
  | clause :: clauses => do clauses.foldlM (joinDeeper extra) (← clause.compile)

theorem listed_append (before : List Clause) (clause : Clause) (tests : List Test) (body : ExprId) :
    Listed (before ++ [clause]) tests body ↔
      Listed before tests body ∨ tests = clause.tests ∧ body = clause.body := by
  simp only [Listed, List.mem_append, List.mem_singleton, or_and_right, exists_or, exists_eq_left]
  exact or_congr_right (and_congr eq_comm eq_comm)

theorem Follow.fits {before after : List Clause} (hfollow : Follow program before after) :
    ∀ clause ∈ after, clause.pattern.Fits program program.arity? := by
  induction after generalizing before with
  | nil => nofun
  | cons clause after ih => exact List.forall_mem_cons.2 ⟨hfollow.1, ih hfollow.2.2⟩

theorem follow_iff (hinterned : program.Interned) (hextended : program.ExtendedBy final)
    (before after : List Clause) : Follow final before after ↔ Follow program before after := by
  induction after generalizing before with
  | nil => exact Iff.rfl
  | cons clause after ih =>
    rw [Follow, Follow, hextended.arities,
      Pattern.fits_iff hinterned hextended.toGrows hextended.indexed, ih]

end Clause

namespace Builder.Yields

open Clause

theorem compileClause (clause : Clause) (hinterned : program.Interned) :
    Yields clause.compile program (fun demand final ↦ clause.pattern.Fits program program.arity? ∧
        final.Reads program.arity? 1 (.demand demand) ∧
          final.Chain (.demand demand) clause.tests clause.body)
      (¬clause.pattern.Fits program program.arity?) := by
  have hbody : program.Chain (.body clause.body) [] clause.body := .body
  have hcompile := compile clause.pattern hinterned .body hbody
  rw [List.append_nil] at hcompile
  exact hcompile

/-- One more clause is joined if it fits and may be joined. -/
theorem joinClause (clause : Clause) {before : List Clause} {joined : DemandId}
    (hinterned : program.Interned) (hlists : Lists program.arity? before joined program) :
    Yields (do Demand.join joined (← clause.compile)) program
      (fun demand final ↦ (clause.pattern.Fits program program.arity? ∧
          Joinable (Listed before) clause.tests clause.body) ∧
        Lists program.arity? (before ++ [clause]) demand final)
      (¬(clause.pattern.Fits program program.arity? ∧
        Joinable (Listed before) clause.tests clause.body)) := by
  refine bind (compileClause clause hinterned) (fun {demand middle} hmiddle hclause ↦ ?_)
    (mt And.left)
  obtain ⟨hfits, hreads, hchain⟩ := hclause
  have hleft : middle.Reads program.arity? 1 (.demand joined) :=
    hmiddle.reads hmiddle.indexed hlists.reads
  have hroutes : middle.Routes (.demand joined) = Listed before := by
    funext tests body
    exact propext ((hmiddle.routes_iff hmiddle.indexed hlists.reads).trans
      (hlists.routes tests body))
  have hjoin := joinLayers (joined.index + 1) hmiddle.interned hleft hreads hchain
    (Nat.lt_succ_self _)
  rw [hroutes] at hjoin
  refine mono hjoin (fun {joined' last} hlast hjoined ↦ ?_) (mt And.right)
  have hjoinable : Joinable (Listed before) clause.tests clause.body := hroutes ▸ hjoined.joinable
  refine ⟨⟨hfits, hjoinable⟩, hjoined.reads, fun tests body ↦ ?_⟩
  rw [hjoined.routes, hroutes, listed_append]

/-- The clauses are joined one after the other to the demand of those before them. -/
theorem joinAll (after : List Clause) {before : List Clause} {joined : DemandId}
    (hinterned : program.Interned) (hlists : Lists program.arity? before joined program) :
    Yields (after.foldlM (fun joined clause ↦ do Demand.join joined (← clause.compile)) joined)
      program (fun demand final ↦ Follow program before after ∧
        Lists program.arity? (before ++ after) demand final)
      (¬Follow program before after) := by
  induction after generalizing program before joined with
  | nil => exact of_pure hinterned ⟨trivial, (List.append_nil before).symm ▸ hlists⟩
  | cons clause after ih =>
    rw [List.foldlM_cons]
    refine bind (joinClause clause hinterned hlists) (fun {joined' last} hlast hjoined ↦ ?_)
      fun hnot hfollow ↦ hnot ⟨hfollow.1, hfollow.2.1⟩
    have hrest := ih hlast.interned (hlast.arities.symm ▸ hjoined.2)
    rw [hlast.arities, follow_iff hinterned hlast, List.append_assoc] at hrest
    exact mono hrest (fun _ hdemand ↦ ⟨⟨hjoined.1.1, hjoined.1.2, hdemand.1⟩, hdemand.2⟩)
      fun hnot hfollow ↦ hnot hfollow.2.2

/-- The demand of a single clause lists this clause. -/
theorem listClause (clause : Clause) (hinterned : program.Interned) :
    Yields clause.compile program (fun demand final ↦ clause.pattern.Fits program program.arity? ∧
        Lists program.arity? [clause] demand final)
      (¬clause.pattern.Fits program program.arity?) := by
  refine mono (compileClause clause hinterned) (fun hfinal hclause ↦ ?_) id
  obtain ⟨hfits, hreads, hchain⟩ := hclause
  refine ⟨hfits, hreads, fun tests body ↦ ?_⟩
  rw [hchain.routes_iff hfinal.indexed, Listed]
  simp [eq_comm]

/-- Clauses are compiled if and only if they are admissible, and the demand has their routes. -/
theorem compileAll (clauses : List Clause) (hinterned : program.Interned) :
    Yields (Clause.compileAll clauses) program (fun demand final ↦ Admissible program clauses ∧
        Lists program.arity? clauses demand final)
      (¬Admissible program clauses) := by
  cases clauses with
  | nil => exact of_throw hinterned fun hadmissible ↦ hadmissible.1 rfl
  | cons clause clauses =>
    have hempty : Joinable (Listed []) clause.tests clause.body := by
      rintro others other ⟨_, hmem, -⟩
      cases hmem
    refine bind (listClause clause hinterned) (fun {first middle} hmiddle hclause ↦ ?_)
      fun hnot hadmissible ↦ hnot hadmissible.2.1
    have hrest := joinAll clauses hmiddle.interned (hmiddle.arities.symm ▸ hclause.2)
    rw [hmiddle.arities, follow_iff hinterned hmiddle] at hrest
    exact mono hrest (fun _ hdemand ↦
      ⟨⟨List.cons_ne_nil _ _, hclause.1, hempty, hdemand.1⟩, hdemand.2⟩)
      fun hnot hadmissible ↦ hnot hadmissible.2.2.2

theorem joinDeeper_eq (extra : Nat) (clause : Clause) {before : List Clause} {joined : DemandId}
    (hinterned : program.Interned) (hlists : Lists program.arity? before joined program) :
    joinDeeper extra joined clause program =
      (do Demand.join joined (← clause.compile) : Builder DemandId) program := by
  refine Stops.bind_congr (compileClause clause hinterned) fun {demand middle} hcompiled ↦ ?_
  obtain ⟨hmiddle, hclause⟩ := hcompiled
  have hleft := hmiddle.reads hmiddle.indexed hlists.reads
  exact Demand.joinLayers_eq _ _ hmiddle.interned hleft hclause.2.1 hclause.2.2 (by omega)
    (Nat.lt_succ_self _)

theorem foldlM_joinDeeper_eq (extra : Nat) (after : List Clause) {before : List Clause}
    {joined : DemandId} (hinterned : program.Interned)
    (hlists : Lists program.arity? before joined program) :
    (after.foldlM (joinDeeper extra) joined : Builder DemandId) program =
      (after.foldlM (fun joined clause ↦ do Demand.join joined (← clause.compile)) joined :
        Builder DemandId) program := by
  induction after generalizing program before joined with
  | nil => rfl
  | cons clause after ih =>
    rw [List.foldlM_cons, List.foldlM_cons]
    refine (run_bind_congr (joinDeeper_eq extra clause hinterned hlists) _).trans
      (Stops.bind_congr (joinClause clause hinterned hlists) fun hlast ↦ ?_)
    exact ih hlast.1.interned (hlast.1.arities.symm ▸ hlast.2.2)

/-- However many layers may be joined, compiling clauses comes to the same. -/
theorem compileDeeper_eq (extra : Nat) (clauses : List Clause) (hinterned : program.Interned) :
    compileDeeper extra clauses program = Clause.compileAll clauses program := by
  cases clauses with
  | nil => rfl
  | cons clause clauses =>
    refine Stops.bind_congr (listClause clause hinterned) fun hmiddle ↦ ?_
    exact foldlM_joinDeeper_eq extra clauses hmiddle.1.interned
      (hmiddle.1.arities.symm ▸ hmiddle.2.2)

end Builder.Yields

end Whence
