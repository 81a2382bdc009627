import Whence.Proofs.Building
import Whence.Proofs.Parametricity

/-!
# Demands made of patterns

Of the demands that the builder interns the first alone is on everything.  All others come from
patterns: they refer only to demands made before them, and never to the one on everything.  So do the
functions and matches of a program, and what is demanded while a pattern is matched is a pattern too.
-/

namespace Whence

variable {program : Program}

namespace Program

/-- The program has the demand, and it is not the one on everything. -/
def IsPattern (program : Program) (demand : DemandId) : Prop :=
  demand ≠ .everything ∧ demand.index < program.demands.size

/-- If a demand comes next, it is a pattern. -/
def AllowsPattern (program : Program) (next : Next) : Prop :=
  ∀ demand, next = .demand demand → program.IsPattern demand

theorem IsPattern.allows {demand : DemandId} (hdemand : program.IsPattern demand) :
    program.AllowsPattern (.demand demand) :=
  fun _ hsame ↦ Next.demand.inj hsame ▸ hdemand

/-- The first demand alone is on everything; all others, and all expressions, refer to patterns. -/
structure Patterned (program : Program) : Prop where
  first : program.demands[0]? = some (.everything .done)
  table : ∀ {layer : Demand} {demand : DemandId}, program.demandIds[layer]? = some demand →
    program.demands[demand.index]? = some layer
  layers : ∀ {index : Nat} {layer : Demand}, index ≠ 0 → program.demands[index]? = some layer →
    layer.Suits False fun next ↦ ∀ demand, next = .demand demand →
      demand ≠ .everything ∧ demand.index < index
  exprs : ∀ expr ∈ program.exprs, ∀ demand ∈ expr.demands, program.IsPattern demand

namespace Patterned

variable {layer : Demand} {demand : DemandId}

theorem layer_suits (hpatterned : program.Patterned) (hdemand : program.IsPattern demand) :
    (program.demand demand).Suits False fun next ↦ ∀ following, next = .demand following →
      program.IsPattern following ∧ following.index < demand.index := by
  have hindex : demand.index ≠ 0 := fun hzero ↦ hdemand.1 (by cases demand; exact congrArg _ hzero)
  have hlayer : program.demands[demand.index]? = some (program.demand demand) := by
    rw [Program.demand, Array.getElem?_eq_getElem hdemand.2, Option.getD_some]
  obtain ⟨hwhole, hnexts⟩ := hpatterned.layers hindex hlayer
  refine ⟨hwhole, fun next hnext following hfollows ↦ ?_⟩
  obtain ⟨hne, hlt⟩ := hnexts next hnext following hfollows
  exact ⟨⟨hne, Nat.lt_trans hlt hdemand.2⟩, hlt⟩

theorem internDemand (hpatterned : program.Patterned)
    (hlayer : layer.Suits False program.AllowsPattern) :
    ((program.internDemand layer).2.Patterned ∧
      program.demands.size ≤ (program.internDemand layer).2.demands.size) ∧
      (program.internDemand layer).2.IsPattern (program.internDemand layer).1 := by
  obtain ⟨hsize, hzero⟩ := Array.getElem?_eq_some_iff.1 hpatterned.first
  unfold Program.internDemand
  cases hfound : program.demandIds[layer]? with
  | some found =>
    have hplace := hpatterned.table hfound
    refine ⟨⟨hpatterned, Nat.le_refl _⟩, fun heverything ↦ ?_, (Array.getElem?_eq_some_iff.1 hplace).1⟩
    subst heverything
    have hsame : layer = .everything .done := Option.some.inj (hplace.symm.trans hpatterned.first)
    exact hlayer.1 _ hsame
  | none =>
    have hlarger : program.demands.size ≤ (program.demands.push layer).size := by simp
    refine ⟨⟨⟨?_, ?_, ?_, ?_⟩, hlarger⟩, ?_, by simp⟩
    · rw [Array.getElem?_push_lt hsize, hzero]
    · intro other demand hother
      rw [Std.HashMap.getElem?_insert] at hother
      split at hother
      case isTrue hsame =>
        cases hother
        rw [beq_iff_eq] at hsame
        rw [Array.getElem?_push_size, hsame]
      case isFalse =>
        have hplace := hpatterned.table hother
        have hlt := (Array.getElem?_eq_some_iff.1 hplace).1
        rw [Array.getElem?_push_lt hlt, ← Array.getElem?_eq_getElem hlt, hplace]
    · intro index other hindex hother
      rw [Array.getElem?_push] at hother
      split at hother
      case isTrue hlast =>
        cases hother
        subst hlast
        exact hlayer
      case isFalse => exact hpatterned.layers hindex hother
    · intro expr hexpr demand hdemand
      obtain ⟨hne, hlt⟩ := hpatterned.exprs expr hexpr demand hdemand
      exact ⟨hne, Nat.lt_of_lt_of_le hlt hlarger⟩
    · intro heverything
      exact absurd (congrArg DemandId.index heverything) (Nat.ne_of_gt hsize)

theorem congr {final : Program} (hpatterned : program.Patterned)
    (hdemands : final.demands = program.demands) (hids : final.demandIds = program.demandIds)
    (hexprs : final.exprs = program.exprs) : final.Patterned := by
  refine ⟨?_, ?_, ?_, ?_⟩
  · rw [hdemands]
    exact hpatterned.first
  · rw [hdemands, hids]
    exact hpatterned.table
  · rw [hdemands]
    exact hpatterned.layers
  · rw [hexprs]
    intro expr hexpr demand hdemand
    rw [IsPattern, hdemands]
    exact hpatterned.exprs expr hexpr demand hdemand

theorem declare (hpatterned : program.Patterned) (tag : String) (arity : Nat) (datatype : String) :
    (program.declare tag arity datatype).Patterned ∧
      program.demands.size ≤ (program.declare tag arity datatype).demands.size := by
  unfold Program.declare
  dsimp only
  split <;> exact ⟨hpatterned.congr rfl rfl rfl, Nat.le_refl _⟩

theorem pushExpr (hpatterned : program.Patterned) {expr : Expr}
    (hexpr : ∀ demand ∈ expr.demands, program.IsPattern demand) :
    (program.pushExpr expr).2.Patterned := by
  refine ⟨hpatterned.first, hpatterned.table, hpatterned.layers, fun other hother ↦ ?_⟩
  obtain hother | rfl := Array.mem_push.1 hother
  · exact hpatterned.exprs other hother
  · exact hexpr

/-- The initial program has one demand on everything and three more that refer to none. -/
theorem initial : Program.initial.Patterned := by
  have hrest : ∀ {program : Program} {layer : Demand}, program.Patterned →
      layer.Suits False (fun next ↦ ∀ demand, next ≠ .demand demand) →
      (program.internDemand layer).2.Patterned :=
    fun hpatterned hlayer ↦
      (hpatterned.internDemand ⟨hlayer.1, fun next hmem demand hsame ↦
        absurd hsame (hlayer.2 next hmem demand)⟩).1.1
  have hfirst : ∀ symbols : SymbolTable,
      (({ symbols } : Program).internDemand (.everything .done)).2.Patterned := by
    intro symbols
    simp only [Program.internDemand, Std.HashMap.getElem?_empty]
    refine ⟨rfl, fun {layer demand} hfound ↦ ?_, fun {index layer} hindex hlayer ↦ ?_, ?_⟩
    · rw [Std.HashMap.getElem?_insert] at hfound
      split at hfound
      case isTrue hsame =>
        cases hfound
        rw [beq_iff_eq] at hsame
        rw [← hsame]
        rfl
      case isFalse => simp at hfound
    · simp [hindex] at hlayer
    · simp
  rw [initial_eq]
  refine declareAll_keeps (P := Patterned) (fun tag arity datatype hpatterned ↦
    (hpatterned.declare tag arity datatype).1) _ (hrest (hrest (hrest (hfirst _) ?_) ?_) ?_)
  all_goals exact ⟨fun _ heverything ↦ Demand.noConfusion heverything, by simp [Demand.nexts]⟩

end Patterned

end Program

namespace Builder

theorem Course.patterned : Course Program.Patterned
    (fun program final ↦ final.Patterned ∧ program.demands.size ≤ final.demands.size)
    Program.AllowsPattern where
  refl hpatterned := ⟨hpatterned, Nat.le_refl _⟩
  trans hfirst hsecond := ⟨hsecond.1, Nat.le_trans hfirst.2 hsecond.2⟩
  kept := And.left
  stays hleads hfits demand hnext :=
    ⟨(hfits demand hnext).1, Nat.lt_of_lt_of_le (hfits demand hnext).2 hleads.2⟩
  intern _ hpatterned := ⟨hpatterned.congr rfl rfl rfl, Nat.le_refl _⟩

/-- Every call of the builder keeps to patterns. -/
theorem Lasting.patterned : Lasting Program.Patterned
    (fun program final ↦ final.Patterned ∧ program.demands.size ≤ final.demands.size)
    Program.AllowsPattern where
  toCourse := Course.patterned
  declare tag arity datatype hpatterned := hpatterned.declare tag arity datatype
  pushExpr hpatterned hexpr _ :=
    ⟨⟨hpatterned.pushExpr fun demand hdemand ↦ hexpr demand hdemand demand rfl, Nat.le_refl _⟩, nofun⟩
  pushGroup hpatterned _ := ⟨hpatterned.congr rfl rfl rfl, Nat.le_refl _⟩
  internDemand hpatterned hlayer :=
    (hpatterned.internDemand ⟨hlayer.1, fun next hmem ↦ (hlayer.2 next hmem).1⟩).imp_right
      Program.IsPattern.allows
  compileAll hpatterned hbodies :=
    Course.patterned.compileAll
      (fun hpatterned hlayer ↦ (hpatterned.internDemand hlayer).imp_right Program.IsPattern.allows)
      (fun hpatterned hdemand ↦ ⟨(hpatterned.layer_suits (hdemand _ rfl)).1,
        fun next hmem following hnext ↦
          ((hpatterned.layer_suits (hdemand _ rfl)).2 next hmem following hnext).1⟩) hpatterned hbodies

end Builder

theorem Program.Built.patterned (hbuilt : program.Built) : program.Patterned := by
  induction hbuilt with
  | initial => exact .initial
  | call call _ ih =>
    exact (Builder.leads_outcome (Builder.Lasting.patterned.run ih fun _ _ ↦ nofun)).1

namespace Program

/-- What may follow a demand: after a pattern, only patterns made before it. -/
def Follows (program : Program) (demand : DemandId) (next : Next) : Prop :=
  program.IsPattern demand → ∀ following, next = .demand following →
    program.IsPattern following ∧ following.index < demand.index

namespace Patterned

variable {demand : DemandId} {following : Next}

/-- Every demand but a pattern is on everything. -/
theorem everything_or_isPattern (hpatterned : program.Patterned) (demand : DemandId) :
    (∃ next, program.demand demand = .everything next) ∨ program.IsPattern demand := by
  by_cases hindex : demand.index < program.demands.size
  · by_cases heverything : demand = .everything
    · refine .inl ⟨.done, ?_⟩
      rw [heverything, Program.demand, DemandId.everything, hpatterned.first, Option.getD_some]
    · exact .inr ⟨heverything, hindex⟩
  · refine .inl ⟨.done, ?_⟩
    rw [Program.demand, Array.getElem?_eq_none (Nat.le_of_not_lt hindex), Option.getD_none]

theorem follows_of_mem (hpatterned : program.Patterned)
    (hmem : following ∈ (program.demand demand).nexts) : program.Follows demand following := by
  rintro hdemand middle rfl
  exact (hpatterned.layer_suits hdemand).2 _ hmem middle rfl

theorem follows_of_next? (hpatterned : program.Patterned)
    (hnext : (program.demand demand).next? = some following) :
    program.Follows demand following := by
  refine hpatterned.follows_of_mem ?_
  cases hlayer : program.demand demand <;> rw [hlayer] at hnext <;>
    simp_all [Demand.next?, Demand.nexts]

theorem follows_of_case? (hpatterned : program.Patterned) {tag : Symbol}
    (hcase : (program.demand demand).case? tag = some following) :
    program.Follows demand following := by
  refine hpatterned.follows_of_mem ?_
  cases hlayer : program.demand demand with
  | constructor cases =>
    rw [hlayer] at hcase
    obtain ⟨before, after, hcases, -⟩ := List.lookup_eq_some_iff.1 hcase
    simp [Demand.nexts, hcases]
  | _ =>
    rw [hlayer] at hcase
    cases hcase

theorem follows_trans {middle : DemandId} (hfirst : program.Follows demand (.demand middle))
    (hsecond : program.Follows middle following) : program.Follows demand following := by
  intro hdemand last hlast
  obtain ⟨hmiddle, hlt⟩ := hfirst hdemand middle rfl
  obtain ⟨hpattern, hlt'⟩ := hsecond hmiddle last hlast
  exact ⟨hpattern, Nat.lt_trans hlt' hlt⟩

theorem of_expr (hpatterned : program.Patterned) {expr : ExprId}
    (hdemand : demand ∈ (program.expr expr).demands) : program.IsPattern demand := by
  rw [Program.expr] at hdemand
  cases hexpr : program.exprs[expr.index]? with
  | none =>
    rw [hexpr] at hdemand
    cases hdemand
  | some form =>
    rw [hexpr] at hdemand
    exact hpatterned.exprs form (Array.mem_of_getElem? hexpr) demand hdemand

end Patterned

theorem Built.isPattern (hbuilt : program.Built) {index : Nat} (hindex : index ≠ 0)
    (hlt : index < initialDemands.length) : program.IsPattern ⟨index⟩ := by
  refine ⟨fun heverything ↦ hindex (congrArg DemandId.index heverything), ?_⟩
  have hplace := hbuilt.primed.demands (List.getElem?_eq_getElem hlt)
  exact (Array.getElem?_eq_some_iff.1 hplace).1

/-- Where only patterns are demanded, nothing but patterns comes to be demanded. -/
theorem Built.guides (hbuilt : program.Built) :
    program.Guides program.IsPattern program.Follows where
  function := hbuilt.isPattern (by decide) (by decide)
  operand primitive := by
    cases primitive.operand with
    | number => exact hbuilt.isPattern (by decide) (by decide)
    | text => exact hbuilt.isPattern (by decide) (by decide)
  parameter hexpr := hbuilt.patterned.of_expr (by rw [hexpr]; exact List.mem_singleton_self _)
  cases hexpr := hbuilt.patterned.of_expr (by rw [hexpr]; exact List.mem_singleton_self _)
  next _ hnext := hbuilt.patterned.follows_of_next? hnext
  case _ hcase := hbuilt.patterned.follows_of_case? hcase
  parts hdemand hlayer := ((hbuilt.patterned.layer_suits hdemand).1 _ hlayer).elim
  allowed hdemand hfollows := (hfollows hdemand _ rfl).1
  trans := Patterned.follows_trans

/-- Whatever is demanded, patterns are followed by patterns. -/
theorem Built.guides_any (hbuilt : program.Built) :
    program.Guides (fun _ ↦ True) program.Follows where
  function := trivial
  operand _ := trivial
  parameter _ := trivial
  cases _ := trivial
  next _ hnext := hbuilt.patterned.follows_of_next? hnext
  case _ hcase := hbuilt.patterned.follows_of_case? hcase
  parts _ hlayer hdemand := ((hbuilt.patterned.layer_suits hdemand).1 _ hlayer).elim
  allowed _ _ := trivial
  trans := Patterned.follows_trans

end Program

end Whence
