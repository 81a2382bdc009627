import Whence.Proofs.Clauses.Paths
import Whence.Proofs.Orderly.Basic

/-!
# Interned demands

A program keeps equal demands once, and a demand refers only to demands made before it.  A program
grows when names, demands and the rest are added to it.  Whoever reads nodes through a demand does so
in the same way after the program has grown.
-/

namespace Whence.Program

variable {program middle final : Program} {arities : Symbol → Option Nat} {layer : Demand}
  {test : Test} {next following last : Next} {tests : List Test} {body : ExprId} {count : Nat}

/-- All demands that were made and all names stay as they are. -/
structure Grows (program final : Program) : Prop where
  demand : ∀ id, program.demand id ≠ .everything .done → final.demand id = program.demand id
  symbol : ∀ {name symbol}, program.symbol? name = some symbol → final.symbol? name = some symbol

/-- The tables find what they hold, equal demands are the same demand, and a demand refers only to
demands made before it. -/
structure Interned (program : Program) : Prop extends Tabled program where
  once : ∀ {index : Nat} {layer : Demand}, program.demands[index]? = some layer →
    program.demandIds[layer]? = some (⟨index⟩ : DemandId)
  earlier : ∀ {index : Nat} {layer : Demand} {demand : DemandId},
    program.demands[index]? = some layer → .demand demand ∈ layer.nexts → demand.index < index
  named : ∀ {symbol arity}, program.arity? symbol = some arity → program.Names symbol

namespace Grows

theorem refl (program : Program) : program.Grows program := ⟨fun _ _ ↦ rfl, id⟩

theorem trans (hfirst : program.Grows middle) (hsecond : middle.Grows final) :
    program.Grows final where
  demand id hmade := by
    have hmiddle := hfirst.demand id hmade
    rw [hsecond.demand id (hmiddle ▸ hmade), hmiddle]
  symbol hsymbol := hsecond.symbol (hfirst.symbol hsymbol)

theorem names (hgrows : program.Grows final) {symbol : Symbol} (hnames : program.Names symbol) :
    final.Names symbol :=
  hnames.imp fun _ hname ↦ hgrows.symbol hname

theorem isProper (hgrows : program.Grows final) (hproper : layer.IsProper program arities) :
    layer.IsProper final arities := by
  cases layer with
  | bind symbol next => exact hgrows.names hproper
  | constructor cases =>
    obtain ⟨hne, hnodup, hnames⟩ := hproper
    exact ⟨hne, hnodup, fun case hcase ↦ (hnames case hcase).imp_left hgrows.names⟩
  | _ => exact hproper

/-- A proper layer makes the same tests after the program has grown. -/
theorem passes_iff (hgrows : program.Grows final) (hindexed : final.symbols.Indexed)
    (hproper : layer.IsProper program arities) :
    final.Passes layer test next ↔ program.Passes layer test next := by
  -- A symbol that is named already has no other name later on.
  have hname : ∀ {name symbol}, program.Names symbol → final.symbol? name = some symbol →
      program.symbol? name = some symbol := by
    rintro name symbol ⟨known, hknown⟩ hname
    rwa [hindexed.injective hname (hgrows.symbol hknown)]
  constructor
  · intro hpasses
    cases hpasses with
    | bind hsymbol => exact .bind (hname hproper hsymbol)
    | constructor hsymbol hlookup =>
      have hcase := hproper.2.2 _ (Environments.mem_of_lookup hlookup)
      exact .constructor (hname hcase.1 hsymbol) hlookup
    | number => exact .number
    | text => exact .text
    | function => exact .function
  · intro hpasses
    cases hpasses with
    | bind hsymbol => exact .bind (hgrows.symbol hsymbol)
    | constructor hsymbol hlookup => exact .constructor (hgrows.symbol hsymbol) hlookup
    | number => exact .number
    | text => exact .text
    | function => exact .function

theorem width_eq (hgrows : program.Grows final) (hpasses : program.Passes layer test next) :
    test.width final arities = test.width program arities := by
  cases hpasses with
  | constructor hsymbol _ => simp only [Test.width, hsymbol, hgrows.symbol hsymbol]
  | _ => rfl

theorem demand_eq_of_proper (hgrows : program.Grows final) {demand : DemandId}
    (hproper : (program.demand demand).IsProper program arities) :
    final.demand demand = program.demand demand := by
  refine hgrows.demand demand fun hdone ↦ ?_
  rw [hdone] at hproper
  exact hproper

theorem layer? (hgrows : program.Grows final) (hlayer : test.layer? program next = some layer) :
    test.layer? final next = some layer := by
  cases test with
  | bind name | constructor tag =>
    obtain ⟨symbol, hsymbol, rfl⟩ := Option.map_eq_some_iff.1 hlayer
    simp only [Test.layer?, hgrows.symbol hsymbol, Option.map_some]
  | _ => exact hlayer

theorem chain (hgrows : program.Grows final) (hchain : program.Chain next tests body) :
    final.Chain next tests body := by
  induction hchain with
  | body => exact .body
  | @demand demand test following tests body hlayer _ ih =>
    refine .demand ?_ ih
    have hmade : program.demand demand ≠ .everything .done := by
      intro hdone
      rw [hdone] at hlayer
      cases test <;> simp [Test.layer?] at hlayer
    rw [hgrows.demand demand hmade]
    exact hgrows.layer? hlayer

theorem reads (hgrows : program.Grows final) (hindexed : final.symbols.Indexed)
    (hreads : program.Reads arities count next) : final.Reads arities count next := by
  induction hreads with
  | body => exact .body
  | @demand count demand hproper _ ih =>
    have hsame := hgrows.demand_eq_of_proper hproper
    refine .demand (hsame ▸ hgrows.isProper hproper) fun test following hpasses ↦ ?_
    rw [hsame, hgrows.passes_iff hindexed hproper] at hpasses
    rw [hgrows.width_eq hpasses]
    exact ih test following hpasses

theorem path_iff (hgrows : program.Grows final) (hindexed : final.symbols.Indexed)
    (hreads : program.Reads arities count next) :
    final.Path next tests last ↔ program.Path next tests last := by
  induction hreads generalizing tests with
  | body => rw [path_body_iff, path_body_iff]
  | @demand count demand hproper _ ih =>
    cases tests with
    | nil => rw [path_nil_iff, path_nil_iff]
    | cons test tests =>
      simp only [path_cons_iff, hgrows.demand_eq_of_proper hproper,
        hgrows.passes_iff hindexed hproper]
      refine exists_congr fun following ↦ and_congr_right fun hpasses ↦ ?_
      exact ih test following hpasses

theorem routes_iff (hgrows : program.Grows final) (hindexed : final.symbols.Indexed)
    (hreads : program.Reads arities count next) :
    final.Routes next tests body ↔ program.Routes next tests body :=
  hgrows.path_iff hindexed hreads

end Grows

theorem grows_intern (program : Program) (name : String) : program.Grows (program.intern name).2 :=
  ⟨fun _ _ ↦ rfl, fun hsymbol ↦ SymbolTable.symbol?_intern_of_some hsymbol name⟩

theorem symbol?_intern (program : Program) (name : String) :
    (program.intern name).2.symbol? name = some (program.intern name).1 :=
  SymbolTable.symbol?_intern_self program.symbols name

theorem grows_internDemand (program : Program) (layer : Demand) :
    program.Grows (program.internDemand layer).2 where
  demand := (keptBy_internDemand program layer).demand
  symbol hsymbol := by
    rw [symbol?, Primed.symbols_internDemand]
    exact hsymbol

theorem grows_declare (program : Program) (tag : String) (arity : Nat) (datatype : String) :
    program.Grows (program.declare tag arity datatype) := by
  refine ⟨fun id _ ↦ ?_, fun hsymbol ↦ symbol?_declare hsymbol tag arity datatype⟩
  unfold Program.declare Program.demand
  dsimp only
  split <;> rfl

theorem arity?_internDemand (program : Program) (layer : Demand) :
    (program.internDemand layer).2.arity? = program.arity? := by
  unfold Program.internDemand
  split <;> rfl

namespace Interned

theorem intern (hinterned : program.Interned) (name : String) :
    (program.intern name).2.Interned where
  toTabled := hinterned.toTabled.intern name
  once := hinterned.once
  earlier := hinterned.earlier
  named harity := (grows_intern program name).names (hinterned.named harity)

theorem internDemand (hinterned : program.Interned)
    (hnexts : ∀ demand, .demand demand ∈ layer.nexts → demand.index < program.demands.size) :
    (program.internDemand layer).2.Interned := by
  refine ⟨hinterned.toTabled.internDemand layer, ?_, ?_, fun {symbol arity} harity ↦ ?_⟩
  · unfold Program.internDemand
    split
    case h_1 => exact hinterned.once
    case h_2 hnew =>
      intro index other hother
      rw [Array.getElem?_push] at hother
      rw [Std.HashMap.getElem?_insert]
      split at hother
      case isTrue hindex =>
        cases hother
        simp [hindex]
      case isFalse =>
        have hknown := hinterned.once hother
        have hne : layer ≠ other := by
          rintro rfl
          rw [hnew] at hknown
          cases hknown
        rw [if_neg (by simpa using hne), hknown]
  · unfold Program.internDemand
    split
    case h_1 => exact hinterned.earlier
    case h_2 =>
      intro index other demand hother hdemand
      rw [Array.getElem?_push] at hother
      split at hother
      case isTrue hindex =>
        cases hother
        exact hindex ▸ hnexts demand hdemand
      case isFalse => exact hinterned.earlier hother hdemand
  · rw [arity?_internDemand] at harity
    exact (grows_internDemand program layer).names (hinterned.named harity)

theorem declare (hinterned : program.Interned) (tag : String) (arity : Nat) (datatype : String) :
    (program.declare tag arity datatype).Interned := by
  have hsame : (program.declare tag arity datatype).demands = program.demands ∧
      (program.declare tag arity datatype).demandIds = program.demandIds := by
    unfold Program.declare
    dsimp only
    split <;> exact ⟨rfl, rfl⟩
  refine ⟨hinterned.toTabled.declare tag arity datatype, ?_, ?_, fun {symbol arity'} harity ↦ ?_⟩
  · rw [hsame.1, hsame.2]
    exact hinterned.once
  · rw [hsame.1]
    exact hinterned.earlier
  · rw [arity?_declare] at harity
    split at harity
    case isTrue hsymbol =>
      have hinner : ((program.intern tag).2.intern datatype).2.symbol? tag = some symbol :=
        (grows_intern _ datatype).symbol (hsymbol ▸ symbol?_intern program tag)
      refine ⟨tag, ?_⟩
      unfold Program.declare
      dsimp only
      split <;> exact hinner
    case isFalse =>
      exact (grows_declare program tag arity datatype).names (hinterned.named harity)

/-- Equal layers are the same demand. -/
theorem eq_of_layer_eq (hinterned : program.Interned) {left right : DemandId}
    (hleft : program.demands[left.index]? = some layer)
    (hright : program.demands[right.index]? = some layer) : left = right := by
  have hsame := hinterned.once hleft
  rw [hinterned.once hright] at hsame
  exact (Option.some.inj hsame).symm

/-- The initial program is interned. -/
theorem initial : Program.initial.Interned := by
  have hlayers : ∀ layer ∈ initialDemands, ∀ demand, .demand demand ∉ layer.nexts := by
    simp [initialDemands, Demand.nexts]
  rw [initial_eq]
  refine declareAll_keeps (P := Interned) (fun tag arity datatype hinterned ↦
    hinterned.declare tag arity datatype) _ (internDemands_keeps (P := Interned)
      (fun hlayer hinterned ↦ hinterned.internDemand fun demand hdemand ↦
        absurd hdemand (hlayers _ hlayer demand)) ⟨Tabled.ofNames initialNames, ?_, ?_, ?_⟩)
  · intro index layer hlayer
    simp at hlayer
  · intro index layer demand hlayer
    simp at hlayer
  · intro symbol arity harity
    simp [arity?, constructor?] at harity

end Interned

end Whence.Program
