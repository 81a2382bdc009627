import Whence.Proofs.Clauses.Interning
import Whence.Proofs.Stopping

/-!
# Joining the demand of a clause

The demand of one more clause is joined to the demand of those before it, test by test.  Joining
succeeds exactly if the clause may be joined, and then its route is added to those that are there.
-/

namespace Whence

open Program

variable {α β : Type} {program middle final : Program} {arities : Symbol → Option Nat}
  {left right layer : Demand} {test other : Test} {next following last : Next} {tests : List Test}
  {body : ExprId} {count : Nat}

namespace Program

/-- Names and demands have been added to the program, and nothing else has changed that matters to
clauses. -/
structure ExtendedBy (program final : Program) : Prop extends Grows program final where
  interned : final.Interned
  arities : final.arity? = program.arity?

theorem ExtendedBy.refl (hinterned : program.Interned) : program.ExtendedBy program :=
  ⟨.refl program, hinterned, rfl⟩

theorem ExtendedBy.trans (hfirst : program.ExtendedBy middle) (hsecond : middle.ExtendedBy final) :
    program.ExtendedBy final :=
  ⟨hfirst.toGrows.trans hsecond.toGrows, hsecond.interned, hsecond.arities.trans hfirst.arities⟩

theorem ExtendedBy.indexed (hextended : program.ExtendedBy final) : final.symbols.Indexed :=
  hextended.interned.symbols

end Program

namespace Builder

/-- The step extends the program, and it succeeds with a result as said or fails for the reason
given. -/
def Yields (step : Builder α) (program : Program) (done : α → Program → Prop) (failed : Prop) :
    Prop :=
  Stops step program (fun result final ↦ program.ExtendedBy final ∧ done result final)
    fun final ↦ program.ExtendedBy final ∧ failed

namespace Yields

variable {done : α → Program → Prop} {done' : β → Program → Prop} {failed failed' : Prop}

theorem of_pure (hinterned : program.Interned) {result : α} (hdone : done result program) :
    Yields (pure result) program done failed :=
  ⟨.refl hinterned, hdone⟩

theorem of_throw (hinterned : program.Interned) {error : Error} (hfailed : failed) :
    Yields (throw error : Builder α) program done failed :=
  ⟨.refl hinterned, hfailed⟩

theorem bind {step : Builder α} {next : α → Builder β} (hfirst : Yields step program done failed)
    (hsecond : ∀ {result middle}, program.ExtendedBy middle → done result middle →
      Yields (next result) middle done' failed') (hfailed : failed → failed') :
    Yields (step >>= next) program done' failed' := by
  refine Stops.bind hfirst (fun {result middle} hmiddle ↦ ?_) (And.imp_right hfailed)
  exact Stops.mono (hsecond hmiddle.1 hmiddle.2) (And.imp_left hmiddle.1.trans)
    (And.imp_left hmiddle.1.trans)

theorem mono {step : Builder α} {done'' : α → Program → Prop}
    (hstep : Yields step program done failed)
    (hdone : ∀ {result final}, program.ExtendedBy final → done result final → done'' result final)
    (hfailed : failed → failed') : Yields step program done'' failed' :=
  Stops.mono hstep (fun hfinal ↦ ⟨hfinal.1, hdone hfinal.1 hfinal.2⟩) (And.imp_right hfailed)

/-- Reading the program changes nothing. -/
theorem of_get {next : Program → Builder α} (hnext : Yields (next program) program done failed) :
    Yields (get >>= next) program done failed :=
  hnext

theorem intern (hinterned : program.Interned) (name : String) :
    Yields (Builder.intern name) program
      (fun symbol final ↦ final.symbol? name = some symbol) False :=
  ⟨⟨grows_intern program name, hinterned.intern name, rfl⟩, symbol?_intern program name⟩

theorem internDemand (hinterned : program.Interned)
    (hnexts : ∀ demand, .demand demand ∈ layer.nexts → demand.index < program.demands.size) :
    Yields (Builder.internDemand layer) program (fun demand final ↦ final.demand demand = layer)
      False :=
  ⟨⟨grows_internDemand program layer, hinterned.internDemand hnexts,
    arity?_internDemand program layer⟩, hinterned.toTabled.demand_internDemand layer⟩

end Yields

end Builder

namespace Program

/-- The one layer makes the tests that the other one makes, except that `joined` follows `test`. -/
structure Replaces (program : Program) (arities : Symbol → Option Nat) (left layer : Demand)
    (test : Test) (joined : Next) : Prop where
  proper : layer.IsProper program arities
  passes : ∀ other following, program.Passes layer other following ↔
    if other = test then following = joined else program.Passes left other following
  nexts : ∀ following ∈ layer.nexts, following = joined ∨ following ∈ left.nexts

/-- A layer that makes one test only is replaced by another one of its kind. -/
theorem replaces_of_layer? (hindexed : program.symbols.Indexed)
    (hleft : test.layer? program next = some left)
    (hlayer : test.layer? program following = some layer) (hproper : layer.IsProper program arities) :
    program.Replaces arities left layer test following := by
  refine ⟨hproper, fun other after ↦ ?_, fun after hafter ↦ .inl ?_⟩
  · rw [passes_layer?_iff hindexed hlayer, passes_layer?_iff hindexed hleft]
    split
    case isTrue hsame => simp [hsame]
    case isFalse hother => simp [hother]
  · rw [nexts_of_layer? hlayer] at hafter
    exact List.mem_singleton.1 hafter

/-- What the cases of a layer look up decides which tests it makes. -/
theorem passes_of_lookup (hindexed : program.symbols.Indexed) {cases joins : List (Symbol × Next)}
    {tag : String} {symbol : Symbol} (htag : program.symbol? tag = some symbol) {joined : Next}
    (hlookup : ∀ wanted, joins.lookup wanted =
      if wanted = symbol then some joined else cases.lookup wanted) (other : Test) (following : Next) :
    program.Passes (.constructor joins) other following ↔
      if other = .constructor tag then following = joined
      else program.Passes (.constructor cases) other following := by
  split
  case isTrue hsame =>
    subst hsame
    have hjoined : program.Passes (.constructor joins) (.constructor tag) joined :=
      .constructor htag (by rw [hlookup, if_pos rfl])
    exact ⟨fun hpasses ↦ hpasses.unique hjoined, fun hsame ↦ hsame ▸ hjoined⟩
  case isFalse hne =>
    have hsame : ∀ {name wanted}, program.symbol? name = some wanted → other = .constructor name →
        joins.lookup wanted = cases.lookup wanted := by
      rintro name wanted hname rfl
      rw [hlookup, if_neg]
      rintro rfl
      exact hne (congrArg Test.constructor (hindexed.injective hname htag))
    constructor
    · intro hpasses
      cases hpasses with
      | constructor hname hfound => exact .constructor hname ((hsame hname rfl).symm.trans hfound)
    · intro hpasses
      cases hpasses with
      | constructor hname hfound => exact .constructor hname ((hsame hname rfl).trans hfound)

/-- The cases with `joined` in the place of what follows the symbol. -/
def putCase (symbol : Symbol) (joined : Next) (cases : List (Symbol × Next)) : List (Symbol × Next) :=
  cases.map fun case ↦ if case.1 == symbol then (symbol, joined) else case

theorem putCase_fst (symbol : Symbol) (joined : Next) (cases : List (Symbol × Next)) :
    (putCase symbol joined cases).map Prod.fst = cases.map Prod.fst := by
  rw [putCase, List.map_map]
  refine List.map_congr_left fun case _ ↦ ?_
  by_cases hsame : case.1 = symbol <;> simp [hsame]

theorem lookup_putCase (symbol : Symbol) (joined : Next) (cases : List (Symbol × Next))
    (wanted : Symbol) :
    (putCase symbol joined cases).lookup wanted =
      if wanted = symbol then (cases.lookup symbol).map fun _ ↦ joined else cases.lookup wanted := by
  induction cases with
  | nil => simp [putCase]
  | cons first rest ih =>
    have hrest : putCase symbol joined (first :: rest) =
      (if first.1 == symbol then (symbol, joined) else first) :: putCase symbol joined rest := rfl
    obtain ⟨found, next⟩ := first
    rw [hrest]
    by_cases hfound : found = symbol
    · subst hfound
      by_cases hwanted : wanted = found
      · subst hwanted
        simp
      · have hother : (wanted == found) = false := beq_eq_false_iff_ne.2 hwanted
        simp [List.lookup_cons, hother, ih, hwanted]
    · have hsymbol : (symbol == found) = false := beq_eq_false_iff_ne.2 (Ne.symm hfound)
      by_cases hwanted : wanted = found
      · subst hwanted
        simp [hfound]
      · have hother : (wanted == found) = false := beq_eq_false_iff_ne.2 hwanted
        simp [List.lookup_cons, hother, hsymbol, hfound, ih]

/-- In the place of one case comes another one for its tag. -/
theorem replaces_case (hindexed : program.symbols.Indexed) {cases : List (Symbol × Next)}
    (hproper : (Demand.constructor cases).IsProper program arities) {tag : String} {symbol : Symbol}
    (htag : program.symbol? tag = some symbol) (hlookup : cases.lookup symbol = some next)
    (joined : Next) :
    program.Replaces arities (.constructor cases) (.constructor (putCase symbol joined cases))
      (.constructor tag) joined := by
  obtain ⟨hne, hnodup, hdeclared⟩ := hproper
  refine ⟨⟨?_, ?_, ?_⟩, passes_of_lookup hindexed htag fun wanted ↦ ?_, ?_⟩
  · exact fun hnil ↦ hne (List.map_eq_nil_iff.1 hnil)
  · rwa [putCase_fst]
  · intro case hcase
    have hfst : case.1 ∈ cases.map Prod.fst := putCase_fst symbol joined cases ▸
      List.mem_map.2 ⟨case, hcase, rfl⟩
    obtain ⟨old, hold, hsame⟩ := List.mem_map.1 hfst
    exact hsame ▸ hdeclared old hold
  · rw [lookup_putCase, hlookup, Option.map_some]
  · intro following hfollowing
    obtain ⟨case, hcase, rfl⟩ := List.mem_map.1 hfollowing
    obtain ⟨old, hold, rfl⟩ := List.mem_map.1 hcase
    split
    case isTrue => exact .inl rfl
    case isFalse => exact .inr (List.mem_map.2 ⟨old, hold, rfl⟩)

/-- A case for a new tag comes after the others. -/
theorem replaces_new (hindexed : program.symbols.Indexed) {cases : List (Symbol × Next)}
    (hproper : (Demand.constructor cases).IsProper program arities) {tag : String} {symbol : Symbol}
    (htag : program.symbol? tag = some symbol) (harity : (arities symbol).isSome)
    (hlookup : cases.lookup symbol = none) (joined : Next) :
    program.Replaces arities (.constructor cases) (.constructor (cases ++ [(symbol, joined)]))
      (.constructor tag) joined := by
  obtain ⟨-, hnodup, hdeclared⟩ := hproper
  have hnew : symbol ∉ cases.map Prod.fst := by
    intro hmem
    obtain ⟨case, hcase, rfl⟩ := List.mem_map.1 hmem
    simpa using List.lookup_eq_none_iff.1 hlookup case hcase
  refine ⟨⟨by simp, ?_, ?_⟩, passes_of_lookup hindexed htag fun wanted ↦ ?_, ?_⟩
  · rw [List.map_append]
    refine List.nodup_append.2 ⟨hnodup, List.nodup_singleton _, ?_⟩
    rintro first hfirst _ hsecond rfl
    cases List.mem_singleton.1 hsecond
    exact hnew hfirst
  · intro case hcase
    obtain hcase | hcase := List.mem_append.1 hcase
    · exact hdeclared case hcase
    · cases List.mem_singleton.1 hcase
      exact ⟨⟨tag, htag⟩, harity⟩
  · rw [List.lookup_append]
    by_cases hwanted : wanted = symbol
    · subst hwanted
      simp [hlookup]
    · have hother : (wanted == symbol) = false := beq_eq_false_iff_ne.2 hwanted
      simp [List.lookup_cons, hwanted, hother]
  · intro following hfollowing
    simp only [Demand.nexts, List.map_append, List.mem_append] at hfollowing
    obtain hfollowing | hfollowing := hfollowing
    · exact .inr hfollowing
    · exact .inl (List.mem_singleton.1 hfollowing)

/-- What joining a layer to the layer of a single test comes to.  The test may be there already, or
it asks for one more constructor, or the two layers do not go together. -/
inductive JoinsLayer (program : Program) (arities : Symbol → Option Nat) (left right : Demand)
    (test : Test) (following : Next) : Prop
  | shared {next : Next} (rebuild : Next → Demand) : program.Passes left test next →
      (∀ other after, program.Passes left other after → other = test ∨ other.parts test = true) →
      (∀ join, Demand.joinLayer join left right = rebuild <$> join next following) →
      (∀ {final : Program} (joined : Next), program.Grows final → final.symbols.Indexed →
        final.Replaces arities left (rebuild joined) test joined) →
      JoinsLayer program arities left right test following
  | added {layer : Demand} :
      (∀ other after, program.Passes left other after → other.parts test = true) →
      (∀ join, Demand.joinLayer join left right = pure layer) →
      program.Replaces arities left layer test following →
      JoinsLayer program arities left right test following
  | refused {error : Error} :
      (∀ other after, program.Passes left other after →
        other ≠ test ∧ other.parts test = false) →
      (∀ join, Demand.joinLayer join left right = throw error) →
      JoinsLayer program arities left right test following

/-- Joining two layers depends only on how what follows the test is joined. -/
theorem JoinsLayer.congr (hjoins : program.JoinsLayer arities left right test following)
    {join join' : Next → Next → Builder Next}
    (hsame : ∀ next, program.Passes left test next →
      join next following program = join' next following program) :
    Demand.joinLayer join left right program = Demand.joinLayer join' left right program := by
  cases hjoins with
  | refused _ hjoin => rw [hjoin, hjoin]
  | added _ hjoin _ => rw [hjoin, hjoin]
  | shared rebuild hpasses _ hjoin _ =>
    rw [hjoin, hjoin]
    change EStateM.map rebuild _ program = EStateM.map rebuild _ program
    unfold EStateM.map
    rw [hsame _ hpasses]

/-- Two layers of one kind, neither of which is on constructors, share the test. -/
theorem joinsLayer_of_same (hindexed : program.symbols.Indexed) {rebuild : Next → Demand}
    (hlayer : ∀ {final : Program} (next : Next), program.Grows final →
      test.layer? final next = some (rebuild next))
    (hproper : ∀ {final : Program} (next : Next), program.Grows final →
      (rebuild next).IsProper final arities)
    (hjoin : ∀ join, Demand.joinLayer join (rebuild next) (rebuild following) =
      rebuild <$> join next following) :
    program.JoinsLayer arities (rebuild next) (rebuild following) test following := by
  have hown : ∀ {other after}, program.Passes (rebuild next) other after ↔
      other = test ∧ after = next :=
    passes_layer?_iff hindexed (hlayer next (.refl program))
  exact .shared rebuild (hown.2 ⟨rfl, rfl⟩) (fun other after hpasses ↦ .inl (hown.1 hpasses).1) hjoin
    fun joined hgrows hindexed' ↦ replaces_of_layer? hindexed' (hlayer next hgrows)
      (hlayer joined hgrows) (hproper joined hgrows)

/-- A layer on constructors is joined to a case for one more tag, or to another case for a tag. -/
theorem joinsLayer_constructor (hindexed : program.symbols.Indexed) {cases : List (Symbol × Next)}
    (hleft : (Demand.constructor cases).IsProper program arities) {tag : String} {symbol : Symbol}
    (htag : program.symbol? tag = some symbol) (harity : (arities symbol).isSome) :
    program.JoinsLayer arities (.constructor cases) (.constructor [(symbol, following)])
      (.constructor tag) following := by
  have hrivals : ∀ other after, program.Passes (.constructor cases) other after →
      other = .constructor tag ∨ other.parts (.constructor tag) = true := by
    intro other after hpasses
    cases hpasses with
    | @constructor name _ _ _ _ _ =>
      by_cases hname : name = tag
      · exact .inl (congrArg Test.constructor hname)
      · exact .inr (by simpa [Test.parts] using hname)
  cases hlookup : cases.lookup symbol with
  | some next =>
    refine .shared (fun joined ↦ .constructor (putCase symbol joined cases))
      (.constructor htag hlookup) hrivals (fun join ↦ ?_) fun joined hgrows hindexed' ↦
        replaces_case hindexed' (hgrows.isProper hleft) (hgrows.symbol htag) hlookup joined
    simp [Demand.joinLayer, Demand.joinCases, hlookup, putCase]
  | none =>
    refine .added (fun other after hpasses ↦ ?_) (fun join ↦ ?_)
      (replaces_new hindexed hleft htag harity hlookup following)
    · refine (hrivals other after hpasses).resolve_left ?_
      rintro rfl
      cases hpasses with
      | constructor htag' hlookup' =>
        rw [htag] at htag'
        cases htag'
        rw [hlookup] at hlookup'
        cases hlookup'
    · simp [Demand.joinLayer, Demand.joinCases, hlookup]

/-- Layers of two kinds do not go together. -/
theorem joinsLayer_of_kinds (hright : program.Passes right test following)
    (hkinds : left.kind ≠ right.kind) :
    program.JoinsLayer arities left right test following := by
  have hjoin : ∀ join, Demand.joinLayer join left right =
      throw (.overlappingClauses (.kinds left.kind right.kind)) := by
    intro join
    unfold Demand.joinLayer
    split
    case h_7 => rfl
    all_goals exact absurd rfl hkinds
  refine .refused (fun other after hleft ↦ ⟨?_, ?_⟩) hjoin
  · rintro rfl
    cases hleft <;> cases hright <;> exact hkinds rfl
  · -- Only tests for constructors part.
    cases hleft with
    | constructor _ _ =>
      cases hright with
      | constructor _ _ => exact absurd rfl hkinds
      | _ => rfl
    | _ => rfl

theorem joinsLayer (hindexed : program.symbols.Indexed) (hleft : left.IsProper program arities)
    (hright : right.IsProper program arities)
    (hlayer : test.layer? program following = some right) :
    program.JoinsLayer arities left right test following := by
  have hpasses : program.Passes right test following :=
    (passes_layer?_iff hindexed hlayer).2 ⟨rfl, rfl⟩
  cases test with
  | number =>
    cases hlayer
    cases left with
    | number next =>
      exact joinsLayer_of_same hindexed (fun _ _ ↦ rfl) (fun _ _ ↦ trivial) fun _ ↦ rfl
    | _ => exact joinsLayer_of_kinds hpasses (by simp [Demand.kind])
  | text =>
    cases hlayer
    cases left with
    | text next =>
      exact joinsLayer_of_same hindexed (fun _ _ ↦ rfl) (fun _ _ ↦ trivial) fun _ ↦ rfl
    | _ => exact joinsLayer_of_kinds hpasses (by simp [Demand.kind])
  | function =>
    cases hlayer
    cases left with
    | function next =>
      exact joinsLayer_of_same hindexed (fun _ _ ↦ rfl) (fun _ _ ↦ trivial) fun _ ↦ rfl
    | _ => exact joinsLayer_of_kinds hpasses (by simp [Demand.kind])
  | bind name =>
    obtain ⟨symbol, hsymbol, rfl⟩ := Option.map_eq_some_iff.1 hlayer
    cases left with
    | bind known next =>
      by_cases hsame : known = symbol
      · subst hsame
        refine joinsLayer_of_same hindexed (fun next hgrows ↦ ?_) (fun _ hgrows ↦ hgrows.names hright)
          fun _ ↦ if_pos rfl
        simp [Test.layer?, hgrows.symbol hsymbol]
      · refine .refused (fun other after hother ↦ ?_) fun _ ↦ if_neg hsame
        cases hother with
        | bind hknown =>
          refine ⟨fun hbind ↦ hsame ?_, rfl⟩
          cases hbind
          exact Option.some.inj (hknown.symm.trans hsymbol)
    | _ => exact joinsLayer_of_kinds hpasses (by simp [Demand.kind])
  | constructor tag =>
    obtain ⟨symbol, hsymbol, rfl⟩ := Option.map_eq_some_iff.1 hlayer
    cases left with
    | constructor cases =>
      exact joinsLayer_constructor hindexed hleft hsymbol (hright.2.2 _ List.mem_cons_self).2
    | _ => exact joinsLayer_of_kinds hpasses (by simp [Demand.kind])

end Program

end Whence
