import Whence.Proofs.Orderly.Tables

/-!
# Orderly programs

A program is orderly if its constructors are applied to as many arguments as they are declared with,
and if its patterns end in bodies: whoever matches a value against the demand of a function or of a
match, and the arguments of a constructor against what follows, arrives at a body after the last
argument and not before.  The operations on programs keep programs orderly as long as no constructor
is declared again with another arity.
-/

namespace Whence.Program

variable {program final : Program} {count : Nat}

/-- Whoever goes on from `next` and has matched `count` more values has come to a body. -/
inductive Leads (program : Program) : Nat → Next → Prop
  | body {expr : ExprId} : Leads program 0 (.body expr)
  | layer {count : Nat} {demand : DemandId} {next : Next} :
      (program.demand demand).next? = some next → Leads program count next →
      Leads program (count + 1) (.demand demand)
  | cases {count : Nat} {demand : DemandId} {cases : List (Symbol × Next)} :
      program.demand demand = .constructor cases →
      (∀ case ∈ cases, (program.arity? case.1).isSome) →
      (∀ case ∈ cases, ∀ arity, program.arity? case.1 = some arity →
        Leads program (arity + count) case.2) →
      Leads program (count + 1) (.demand demand)

/-- One layer of a demand leads to bodies when `count` values are to come after it: for each tag the
arguments of the constructor come first. -/
def LayerLeads (program : Program) (count : Nat) : Demand → Prop
  | .constructor cases => ∀ case ∈ cases,
      ∃ arity, program.arity? case.1 = some arity ∧ Leads program (arity + count) case.2
  | layer => ∃ next, layer.next? = some next ∧ Leads program count next

/-- A layer that is not on constructors leads where what follows it leads. -/
theorem layerLeads_iff {layer : Demand} {next : Next} (hnext : layer.next? = some next) :
    program.LayerLeads count layer ↔ program.Leads count next := by
  cases layer with
  | constructor cases => cases hnext
  | _ =>
    cases hnext
    exact ⟨fun ⟨_, hnext, hleads⟩ ↦ Option.some.inj hnext ▸ hleads, fun hleads ↦ ⟨_, rfl, hleads⟩⟩

theorem leads_demand_iff {demand : DemandId} :
    program.Leads (count + 1) (.demand demand) ↔
      program.LayerLeads count (program.demand demand) := by
  constructor
  · intro hleads
    cases hleads with
    | layer hnext hleads =>
      cases hlayer : program.demand demand with
      | constructor cases =>
        rw [hlayer] at hnext
        cases hnext
      | _ => exact ⟨_, hlayer ▸ hnext, hleads⟩
    | cases hcases harities hleads =>
      rw [hcases]
      intro case hcase
      obtain ⟨arity, harity⟩ := Option.isSome_iff_exists.1 (harities case hcase)
      exact ⟨arity, harity, hleads case hcase arity harity⟩
  · intro hlayer
    cases hdemand : program.demand demand with
    | constructor cases =>
      rw [hdemand] at hlayer
      refine .cases hdemand (fun case hcase ↦ ?_) fun case hcase arity harity ↦ ?_
      · obtain ⟨arity, harity, -⟩ := hlayer case hcase
        rw [harity]
        rfl
      · obtain ⟨arity', harity', hleads⟩ := hlayer case hcase
        rw [harity] at harity'
        cases harity'
        exact hleads
    | _ =>
      rw [hdemand] at hlayer
      obtain ⟨next, hnext, hleads⟩ := hlayer
      exact .layer (hdemand ▸ hnext) hleads

theorem Leads.pos {demand : DemandId} (hleads : program.Leads count (.demand demand)) :
    ∃ rest, count = rest + 1 := by
  cases hleads <;> exact ⟨_, rfl⟩

/-- All demands that were made and all arities stay as they are. -/
structure KeptBy (program final : Program) : Prop where
  demand : ∀ id, program.demand id ≠ .everything .done → final.demand id = program.demand id
  arity : ∀ {tag arity}, program.arity? tag = some arity → final.arity? tag = some arity

theorem KeptBy.refl (program : Program) : program.KeptBy program := ⟨fun _ _ ↦ rfl, id⟩

theorem KeptBy.trans {middle : Program} (hfirst : program.KeptBy middle)
    (hsecond : middle.KeptBy final) : program.KeptBy final where
  demand id hdemand := by
    have hmiddle := hfirst.demand id hdemand
    rw [hsecond.demand id (hmiddle ▸ hdemand), hmiddle]
  arity harity := hsecond.arity (hfirst.arity harity)

theorem Leads.keep {next : Next} (hleads : program.Leads count next) (hkept : program.KeptBy final) :
    final.Leads count next := by
  induction hleads with
  | body => exact .body
  | @layer count demand next hnext hleads ih =>
    have hmade : program.demand demand ≠ .everything .done := by
      intro hdone
      rw [hdone] at hnext
      cases hnext
      cases hleads
    exact .layer (by rw [hkept.demand demand hmade, hnext]) ih
  | @cases count demand cases hcases harities _ ih =>
    have hmade : program.demand demand ≠ .everything .done := by simp [hcases]
    refine .cases (by rw [hkept.demand demand hmade, hcases]) (fun case hcase ↦ ?_)
      fun case hcase arity harity ↦ ?_
    · obtain ⟨arity, harity⟩ := Option.isSome_iff_exists.1 (harities case hcase)
      rw [hkept.arity harity]
      rfl
    · obtain ⟨arity', harity'⟩ := Option.isSome_iff_exists.1 (harities case hcase)
      rw [hkept.arity harity'] at harity
      cases harity
      exact ih case hcase arity harity'

theorem LayerLeads.keep {layer : Demand} (hlayer : program.LayerLeads count layer)
    (hkept : program.KeptBy final) : final.LayerLeads count layer := by
  cases layer with
  | constructor cases =>
    intro case hcase
    obtain ⟨arity, harity, hleads⟩ := hlayer case hcase
    exact ⟨arity, hkept.arity harity, hleads.keep hkept⟩
  | _ =>
    obtain ⟨next, hnext, hleads⟩ := hlayer
    exact ⟨next, hnext, hleads.keep hkept⟩

/-- The expression is right by itself: functions and matches lead to bodies, and a constructor has
all its arguments. -/
def OrderlyExpr (program : Program) : Expr → Prop
  | .function demand | .matching _ demand => program.Leads 1 (.demand demand)
  | .constructor tag args => program.arity? tag = some args.length
  | _ => True

structure Orderly (program : Program) : Prop extends Tabled program where
  builtins : ∀ entry ∈ builtinArities, program.arity? entry.1 = some entry.2
  exprs : ∀ id, program.OrderlyExpr (program.expr id)

theorem OrderlyExpr.keep {expr : Expr} (hexpr : program.OrderlyExpr expr)
    (hkept : program.KeptBy final) : final.OrderlyExpr expr := by
  cases expr with
  | function demand => exact Leads.keep hexpr hkept
  | matching scrutinee demand => exact Leads.keep hexpr hkept
  | constructor tag args => exact hkept.arity hexpr
  | _ => trivial

theorem keptBy_internDemand (program : Program) (layer : Demand) :
    program.KeptBy (program.internDemand layer).2 := by
  unfold Program.internDemand
  split
  · exact .refl program
  · refine ⟨fun id hmade ↦ ?_, fun harity ↦ harity⟩
    simp only [Program.demand, Array.getElem?_push] at hmade ⊢
    split
    case isTrue hindex => simp [hindex] at hmade
    case isFalse => rfl

/-- A declaration keeps the program if it does not give a declared constructor another arity. -/
theorem Tabled.keptBy_declare (htabled : program.Tabled) {name : String} {arity : Nat}
    (hsteady : ∀ constructor, program.constructorNamed? name = some constructor →
      constructor.arity = arity) (datatype : String) :
    program.KeptBy (program.declare name arity datatype) := by
  refine ⟨fun id _ ↦ ?_, fun {tag arity'} harity ↦ ?_⟩
  · unfold Program.declare Program.demand
    dsimp only
    split <;> rfl
  · rw [arity?_declare]
    split
    case isTrue htag =>
      -- A symbol that is declared already is the symbol of its name before the declaration.
      subst htag
      cases hsymbol : program.symbol? name with
      | none =>
        have hnew : (program.intern name).1 = ⟨program.symbols.names.size⟩ := by
          rw [Program.symbol?] at hsymbol
          simp only [Program.intern, SymbolTable.intern, hsymbol]
        have hlt := htabled.tags harity
        rw [hnew] at hlt
        exact absurd hlt (Nat.lt_irrefl _)
      | some symbol =>
        have hold : (program.intern name).1 = symbol := by
          rw [Program.symbol?] at hsymbol
          simp only [Program.intern, SymbolTable.intern, hsymbol]
        rw [hold, arity?] at harity
        obtain ⟨constructor, hconstructor, rfl⟩ := Option.map_eq_some_iff.1 harity
        rw [hsteady constructor]
        rw [constructorNamed?, hsymbol]
        exact hconstructor
    case isFalse => exact harity

namespace Orderly

theorem of_keptBy (horderly : program.Orderly) (hkept : program.KeptBy final) (htabled : final.Tabled)
    (hexprs : final.exprs = program.exprs) : final.Orderly where
  toTabled := htabled
  builtins entry hentry := hkept.arity (horderly.builtins entry hentry)
  exprs id := by
    have hexpr : final.expr id = program.expr id := by rw [Program.expr, hexprs, Program.expr]
    rw [hexpr]
    exact (horderly.exprs id).keep hkept

theorem pushExpr (horderly : program.Orderly) {expr : Expr} (hexpr : program.OrderlyExpr expr) :
    (program.pushExpr expr).2.Orderly where
  toTabled := ⟨horderly.demands, horderly.symbols, horderly.tags⟩
  builtins := horderly.builtins
  exprs id := by
    have hkept : program.KeptBy (program.pushExpr expr).2 := ⟨fun _ _ ↦ rfl, fun harity ↦ harity⟩
    simp only [Program.expr, Program.pushExpr, Array.getElem?_push]
    split
    case isTrue => exact hexpr.keep hkept
    case isFalse => exact (horderly.exprs id).keep hkept

theorem declare (horderly : program.Orderly) {name : String} {arity : Nat}
    (hsteady : ∀ constructor, program.constructorNamed? name = some constructor →
      constructor.arity = arity) (datatype : String) :
    (program.declare name arity datatype).Orderly := by
  refine horderly.of_keptBy (horderly.keptBy_declare hsteady datatype)
    (horderly.toTabled.declare name arity datatype) ?_
  unfold Program.declare
  dsimp only
  split <;> rfl

end Orderly

theorem Orderly.initial : Program.initial.Orderly := by
  obtain ⟨hstarted, hsymbols⟩ := (Tabled.ofNames initialNames).internDemands initialDemands
  refine ⟨hstarted.declareAll initialConstructors, initial_builtins _ hstarted hsymbols, fun id ↦ ?_⟩
  have hexpr : Program.initial.expr id = default := by
    rw [Program.expr, initial_empty.1]
    rfl
  rw [hexpr]
  trivial

end Whence.Program
