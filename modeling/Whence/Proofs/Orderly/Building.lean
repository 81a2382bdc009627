import Whence.Proofs.Calls.Courses
import Whence.Proofs.Orderly.Basic

/-!
# The builder makes orderly programs

Each step of the builder keeps what the program holds, whether it succeeds or fails.  Compiling a
pattern in front of something that leads to a body gives a demand that leads to a body, and so does
joining the demands of several clauses.  How many values come before the body changes along a
pattern, so that clauses are gone through here once more, with the number at hand.
-/

namespace Whence

variable {program : Program} {α β : Type}

namespace Builder

open Program

/-- The builder has come to an orderly program that keeps what was there. -/
structure StaysOrderly (program final : Program) : Prop where
  orderly : final.Orderly
  kept : program.KeptBy final

theorem Course.orderly : Course Program.Orderly StaysOrderly fun _ _ ↦ True where
  refl horderly := ⟨horderly, .refl _⟩
  trans hfirst hsecond := ⟨hsecond.orderly, hfirst.kept.trans hsecond.kept⟩
  kept hfinal := hfinal.orderly
  stays _ _ := trivial
  intern {program} name horderly := by
    have hkept : program.KeptBy (program.intern name).2 := ⟨fun _ _ ↦ rfl, fun harity ↦ harity⟩
    exact ⟨horderly.of_keptBy hkept (horderly.toTabled.intern name) rfl, hkept⟩

/-- The call does not declare a constructor again with another arity. -/
def Call.IsSteady (program : Program) : Call → Prop
  | .declare tag arity _ => ∀ constructor, program.constructorNamed? tag = some constructor →
      constructor.arity = arity
  | _ => True

namespace StaysOrderly

theorem pushExpr (horderly : program.Orderly) {expr : Expr} (hexpr : program.OrderlyExpr expr) :
    Brings StaysOrderly (Builder.pushExpr expr) program fun _ _ ↦ True :=
  ⟨⟨horderly.pushExpr hexpr, fun _ _ ↦ rfl, fun harity ↦ harity⟩, trivial⟩

theorem pushGroup (horderly : program.Orderly) (group : Group) :
    Brings StaysOrderly (Builder.pushGroup group) program fun _ _ ↦ True := by
  have hkept : program.KeptBy (program.pushGroup group).2 := ⟨fun _ _ ↦ rfl, fun harity ↦ harity⟩
  exact ⟨⟨horderly.of_keptBy hkept ⟨horderly.demands, horderly.symbols, horderly.tags⟩ rfl, hkept⟩,
    trivial⟩

/-- Interning a layer that leads to bodies gives a demand that does. -/
theorem internDemand (horderly : program.Orderly) {layer : Demand} {count : Nat}
    (hlayer : program.LayerLeads count layer) :
    Brings StaysOrderly (Builder.internDemand layer) program fun demand final ↦
      final.Leads (count + 1) (.demand demand) := by
  have hkept := keptBy_internDemand program layer
  have hexprs : (program.internDemand layer).2.exprs = program.exprs := by
    unfold Program.internDemand
    split <;> rfl
  have hleads : (program.internDemand layer).2.Leads (count + 1)
      (.demand (program.internDemand layer).1) := by
    rw [leads_demand_iff, horderly.toTabled.demand_internDemand]
    exact hlayer.keep hkept
  exact ⟨⟨horderly.of_keptBy hkept (horderly.toTabled.internDemand layer) hexprs, hkept⟩, hleads⟩

theorem constructorOf (horderly : program.Orderly) (tag : String) (count : Nat) :
    Brings StaysOrderly (Builder.constructorOf tag count) program fun constructor final ↦
      final.arity? constructor.tag = some count := by
  refine Course.of_get ?_
  split
  case h_1 => exact Course.orderly.of_throw horderly _
  case h_2 constructor hconstructor =>
    split
    case isFalse => exact Course.orderly.of_throw horderly _
    case isTrue harity =>
      refine Course.orderly.of_pure horderly ?_
      obtain ⟨symbol, -, hfound⟩ := Option.bind_eq_some_iff.1 hconstructor
      have htag : constructor.tag = symbol := by simpa using List.find?_some hfound
      rw [arity?, htag, hfound, ← harity]
      rfl

mutual

theorem compile {program : Program} (pattern : Pattern) {next : Next} {count : Nat}
    (horderly : program.Orderly) (hnext : program.Leads count next) :
    Brings StaysOrderly (pattern.compile next) program fun demand final ↦
      final.Leads (count + 1) (.demand demand) := by
  cases pattern with
  | bind name =>
    exact Course.orderly.bind (Course.orderly.internName horderly name) fun hmiddle _ ↦
      internDemand hmiddle.orderly ⟨next, rfl, hnext.keep hmiddle.kept⟩
  | wild =>
    exact Course.orderly.bind (Course.orderly.internName horderly "_") fun hmiddle _ ↦
      internDemand hmiddle.orderly ⟨next, rfl, hnext.keep hmiddle.kept⟩
  | number => exact internDemand horderly ⟨next, rfl, hnext⟩
  | text => exact internDemand horderly ⟨next, rfl, hnext⟩
  | function => exact internDemand horderly ⟨next, rfl, hnext⟩
  | constructor tag args =>
    refine Course.orderly.bind (constructorOf horderly tag args.length)
      fun {constructor _} hmiddle harity ↦ ?_
    refine Course.orderly.bind (compileArgs args hmiddle.orderly (hnext.keep hmiddle.kept))
      fun hlast hfirst ↦ internDemand hlast.orderly fun case hcase ↦ ?_
    cases List.mem_singleton.1 hcase
    exact ⟨args.length, hlast.kept.arity harity, hfirst⟩

theorem compileArgs {program : Program} (patterns : List Pattern) {next : Next} {count : Nat}
    (horderly : program.Orderly) (hnext : program.Leads count next) :
    Brings StaysOrderly (Pattern.compileArgs patterns next) program fun first final ↦
      final.Leads (patterns.length + count) first := by
  cases patterns with
  | nil =>
    refine Course.orderly.of_pure horderly ?_
    rw [List.length_nil, Nat.zero_add]
    exact hnext
  | cons arg args =>
    refine Course.orderly.bind (compileArgs args horderly hnext) fun hmiddle hfollowing ↦
      Course.orderly.bind (compile arg hmiddle.orderly hfollowing) fun hlast hdemand ↦
      Course.orderly.of_pure hlast.orderly ?_
    rw [List.length_cons, Nat.add_right_comm]
    exact hdemand

end

/-- Joining two continuations gives one that leads to bodies after as many values. -/
def Joins (join : Next → Next → Builder Next) : Prop :=
  ∀ {program : Program} {count : Nat} {next other : Next}, program.Orderly →
    program.Leads count next → program.Leads count other →
    Brings StaysOrderly (join next other) program fun joined final ↦ final.Leads count joined

theorem joinCases {join : Next → Next → Builder Next} (hjoin : Joins join) {count : Nat}
    {others cases : List (Symbol × Next)} (horderly : program.Orderly)
    (hcases : program.LayerLeads count (.constructor cases))
    (hothers : program.LayerLeads count (.constructor others)) :
    Brings StaysOrderly (Demand.joinCases join cases others) program fun joined final ↦
      final.LayerLeads count (.constructor joined) := by
  induction others generalizing program cases with
  | nil => exact Course.orderly.of_pure horderly hcases
  | cons other others ih =>
    obtain ⟨tag, next⟩ := other
    obtain ⟨arity, harity, hnext⟩ := hothers _ List.mem_cons_self
    have hrest : program.LayerLeads count (.constructor others) :=
      fun case hcase ↦ hothers case (List.mem_cons_of_mem _ hcase)
    unfold Demand.joinCases
    split
    case h_1 =>
      refine ih horderly (fun case hcase ↦ ?_) hrest
      obtain hcase | hcase := List.mem_append.1 hcase
      · exact hcases case hcase
      · cases List.mem_singleton.1 hcase
        exact ⟨arity, harity, hnext⟩
    case h_2 present hpresent =>
      obtain ⟨arity', harity', hleads⟩ := hcases (tag, present) (Environments.mem_of_lookup hpresent)
      rw [harity] at harity'
      cases harity'
      refine Course.orderly.bind (hjoin horderly hleads hnext) fun hmiddle hjoined ↦
        ih hmiddle.orderly (fun case hcase ↦ ?_) (hrest.keep hmiddle.kept)
      obtain ⟨case', hcase', rfl⟩ := List.mem_map.1 hcase
      split
      case isTrue => exact ⟨arity, hmiddle.kept.arity harity, hjoined⟩
      case isFalse => exact (hcases.keep hmiddle.kept) case' hcase'

theorem joinLayer {join : Next → Next → Builder Next} (hjoin : Joins join) {count : Nat}
    {left right : Demand} (horderly : program.Orderly) (hleft : program.LayerLeads count left)
    (hright : program.LayerLeads count right) :
    Brings StaysOrderly (Demand.joinLayer join left right) program fun joined final ↦
      final.LayerLeads count joined := by
  -- Two layers of one kind that are not on constructors are joined in what follows them.
  have hsingle : ∀ {next other : Next} {rebuild : Next → Demand},
      (∀ next, (rebuild next).next? = some next) → program.LayerLeads count (rebuild next) →
      program.Leads count other →
      Brings StaysOrderly (rebuild <$> join next other) program fun joined final ↦
        final.LayerLeads count joined := by
    intro next other rebuild hrebuild hnext hother
    exact Course.orderly.map (hjoin horderly ((layerLeads_iff (hrebuild next)).1 hnext) hother)
      (layerLeads_iff (hrebuild _)).2
  unfold Demand.joinLayer
  split
  case h_1 => exact Course.orderly.map (joinCases hjoin horderly hleft hright) id
  case h_2 =>
    split
    case isTrue => exact hsingle (fun _ ↦ rfl) hleft ((layerLeads_iff rfl).1 hright)
    case isFalse => exact Course.orderly.of_throw horderly _
  case h_3 => exact hsingle (fun _ ↦ rfl) hleft ((layerLeads_iff rfl).1 hright)
  case h_4 => exact hsingle (fun _ ↦ rfl) hleft ((layerLeads_iff rfl).1 hright)
  case h_5 => exact hsingle (fun _ ↦ rfl) hleft ((layerLeads_iff rfl).1 hright)
  case h_6 => exact hsingle (fun _ ↦ rfl) hleft ((layerLeads_iff rfl).1 hright)
  case h_7 => exact Course.orderly.of_throw horderly _

theorem joinLayers (layers : Nat) {count : Nat} {left right : DemandId} (horderly : program.Orderly)
    (hleft : program.Leads count (.demand left)) (hright : program.Leads count (.demand right)) :
    Brings StaysOrderly (Demand.joinLayers layers left right) program fun joined final ↦
      final.Leads count (.demand joined) := by
  induction layers generalizing program count left right with
  | zero => exact Course.orderly.of_throw horderly _
  | succ layers ih =>
    have hjoin : Joins (Demand.joinNext (Demand.joinLayers layers)) := by
      intro program count next other horderly hnext hother
      unfold Demand.joinNext
      split
      case h_1 =>
        exact Course.orderly.bind (ih horderly hnext hother) fun hmiddle hjoined ↦
          Course.orderly.of_pure hmiddle.orderly hjoined
      case h_2 => exact Course.orderly.of_throw horderly _
    obtain ⟨rest, rfl⟩ := hleft.pos
    unfold Demand.joinLayers
    split
    case isTrue => exact Course.orderly.of_pure horderly hleft
    case isFalse =>
      have hjoined := joinLayer hjoin horderly (leads_demand_iff.1 hleft) (leads_demand_iff.1 hright)
      exact Course.of_get (Course.orderly.bind hjoined fun hmiddle hlayer ↦
        internDemand hmiddle.orderly hlayer)

/-- The clauses of a function or a match are compiled to a demand on one value. -/
theorem compileAll (clauses : List Clause) (horderly : program.Orderly) :
    Brings StaysOrderly (Clause.compileAll clauses) program fun demand final ↦
      final.Leads 1 (.demand demand) := by
  cases clauses with
  | nil => exact Course.orderly.of_throw horderly _
  | cons clause clauses =>
    refine Course.orderly.bind (compile _ horderly .body) fun hfirst hdemand ↦
      Course.orderly.foldlM hfirst.orderly (fun _ hmiddle hjoined ↦ ?_) hdemand
    exact Course.orderly.bind (compile _ hmiddle.orderly .body) fun hlast hdemand ↦
      joinLayers _ hlast.orderly (hjoined.keep hlast.kept) hdemand

/-! ## Calls -/

theorem builtin (horderly : program.Orderly) {tag : Symbol} {args : List ExprId}
    (hentry : (tag, args.length) ∈ builtinArities) :
    Brings StaysOrderly (Builder.pushExpr (.constructor tag args)) program fun _ _ ↦ True :=
  pushExpr horderly (horderly.builtins _ hentry)

/-- An expression with a name is made after the name. -/
theorem named (horderly : program.Orderly) {wrap : Symbol → Expr} (name : String)
    (hwrap : ∀ symbol final, OrderlyExpr final (wrap symbol)) :
    Brings StaysOrderly (do let symbol ← Builder.intern name; Builder.pushExpr (wrap symbol)) program
      fun _ _ ↦ True :=
  Course.orderly.bind (Course.orderly.internName horderly name) fun hmiddle _ ↦
    pushExpr hmiddle.orderly (hwrap _ _)

/-- What a step returns may be put into something that the program does not hold. -/
theorem wrapped {step : Builder α} (wrap : α → β)
    (hstep : Brings StaysOrderly step program fun _ _ ↦ True) :
    Brings StaysOrderly (do let result ← step; pure (wrap result)) program fun _ _ ↦ True :=
  Course.orderly.bind hstep fun hmiddle _ ↦ Course.orderly.of_pure hmiddle.orderly trivial

theorem list (items : List ExprId) (horderly : program.Orderly) :
    Brings StaysOrderly (Builder.list items) program fun _ _ ↦ True :=
  Course.orderly.bind (builtin horderly (by simp [builtinArities])) fun hmiddle _ ↦
    Course.orderly.foldlM hmiddle.orderly
      (fun _ hlater _ ↦ builtin hlater.orderly (by simp [builtinArities])) trivial

theorem group (entries : List (String × ExprId)) (horderly : program.Orderly) :
    Brings StaysOrderly (Builder.group entries) program fun _ _ ↦ True := by
  have hentry : ∀ {entry : String × ExprId} {middle : Program}, entry ∈ entries →
      StaysOrderly program middle →
      Brings StaysOrderly (do let symbol ← intern entry.1; pure (GroupEntry.mk symbol entry.2)) middle
        fun _ _ ↦ True :=
    fun {entry _} _ hmiddle ↦ wrapped _ (Course.orderly.internName hmiddle.orderly entry.1)
  exact Course.orderly.bind (Course.orderly.mapM horderly hentry fun _ _ ↦ trivial)
    fun hmiddle _ ↦ pushGroup hmiddle.orderly _

theorem call (horderly : program.Orderly) {call : Call} (hsteady : call.IsSteady program) :
    Brings StaysOrderly call.run program fun _ _ ↦ True := by
  cases call with
  | declare tag arity datatype =>
    exact ⟨⟨horderly.declare hsteady datatype, horderly.keptBy_declare hsteady datatype⟩, trivial⟩
  | number value => exact Course.orderly.discard (pushExpr horderly trivial)
  | text value => exact Course.orderly.discard (pushExpr horderly trivial)
  | var name => exact Course.orderly.discard (named horderly name fun _ _ ↦ trivial)
  | op name => exact Course.orderly.discard (named horderly name fun _ _ ↦ trivial)
  | constructor tag args =>
    exact Course.orderly.discard (Course.orderly.bind (constructorOf horderly tag _)
      fun hmiddle harity ↦ pushExpr hmiddle.orderly harity)
  | nil => exact Course.orderly.discard (builtin horderly (by simp [builtinArities]))
  | cons head tail => exact Course.orderly.discard (builtin horderly (by simp [builtinArities]))
  | pair first second => exact Course.orderly.discard (builtin horderly (by simp [builtinArities]))
  | boolean value =>
    refine Course.orderly.discard (builtin horderly ?_)
    cases value <;> simp [builtinArities, Symbol.ofBool]
  | list items => exact Course.orderly.discard (list items horderly)
  | numbers values =>
    have hnumber : ∀ {value : Number} {middle : Program}, value ∈ values →
        StaysOrderly program middle →
        Brings StaysOrderly (Builder.number value) middle fun _ _ ↦ True :=
      fun _ hmiddle ↦ pushExpr hmiddle.orderly trivial
    exact Course.orderly.discard (Course.orderly.bind
      (Course.orderly.mapM horderly hnumber fun _ _ ↦ trivial)
      fun hmiddle _ ↦ list _ hmiddle.orderly)
  | app function argument => exact Course.orderly.discard (pushExpr horderly trivial)
  | apply function arguments =>
    have hstep : ∀ {function argument : ExprId} {middle : Program}, argument ∈ arguments →
        StaysOrderly program middle → True →
        Brings StaysOrderly (Builder.app function argument) middle fun _ _ ↦ True :=
      fun _ hmiddle _ ↦ pushExpr hmiddle.orderly trivial
    exact Course.orderly.discard (Course.orderly.foldlM horderly hstep trivial)
  | binary left name right =>
    exact Course.orderly.discard (Course.orderly.bind (named horderly name fun _ _ ↦ trivial)
      fun hmiddle _ ↦ Course.orderly.bind (pushExpr hmiddle.orderly trivial)
        fun hlast _ ↦ pushExpr hlast.orderly trivial)
  | lambda name body =>
    exact Course.orderly.discard (Course.orderly.bind (Course.orderly.internName horderly name)
      fun hmiddle _ ↦ Course.orderly.bind (internDemand hmiddle.orderly ⟨_, rfl, .body⟩)
        fun hlast hdemand ↦ pushExpr hlast.orderly hdemand)
  | function clauses =>
    exact Course.orderly.discard (Course.orderly.bind (compileAll clauses horderly)
      fun hmiddle hdemand ↦ pushExpr hmiddle.orderly hdemand)
  | matching scrutinee clauses =>
    exact Course.orderly.discard (Course.orderly.bind (compileAll clauses horderly)
      fun hmiddle hdemand ↦ pushExpr hmiddle.orderly hdemand)
  | ifThenElse condition yes no =>
    have hlayer : program.LayerLeads 0
        (.constructor [(.trueTag, .body yes), (.falseTag, .body no)]) := by
      intro case hcase
      obtain rfl | hcase := List.mem_cons.1 hcase
      · exact ⟨0, horderly.builtins (.trueTag, 0) (by simp [builtinArities]), .body⟩
      · cases List.mem_singleton.1 hcase
        exact ⟨0, horderly.builtins (.falseTag, 0) (by simp [builtinArities]), .body⟩
    exact Course.orderly.discard (Course.orderly.bind (internDemand horderly hlayer)
      fun hmiddle hdemand ↦ pushExpr hmiddle.orderly hdemand)
  | letIn name bound body => exact Course.orderly.discard (named horderly name fun _ _ ↦ trivial)
  | group entries => exact Course.orderly.discard (group entries horderly)
  | letRec entries body =>
    exact Course.orderly.discard (Course.orderly.bind (group entries horderly)
      fun hmiddle _ ↦ pushExpr hmiddle.orderly trivial)
  | defineValue name bound =>
    exact Course.orderly.discard (wrapped _ (Course.orderly.internName horderly name))
  | definePrimitive name op =>
    exact Course.orderly.discard (Course.orderly.bind (Course.orderly.internName horderly name)
      fun hmiddle _ ↦ wrapped _ (Course.orderly.internName hmiddle.orderly op))
  | defineGroup entries => exact Course.orderly.discard (wrapped _ (group entries horderly))
  | defs definitions body => exact Course.orderly.discard (pushExpr horderly trivial)

end StaysOrderly

end Builder

/-- The program comes from calls of the builder, none of which declares a constructor again with
another arity. -/
inductive Program.SteadilyBuilt : Program → Prop
  | initial : SteadilyBuilt .initial
  | call {program : Program} (call : Builder.Call) : SteadilyBuilt program → call.IsSteady program →
      SteadilyBuilt (Builder.outcome call.run program).2

theorem Program.SteadilyBuilt.built (hbuilt : program.SteadilyBuilt) : program.Built := by
  induction hbuilt with
  | initial => exact .initial
  | call call _ _ ih => exact .call call ih

theorem Program.SteadilyBuilt.orderly (hbuilt : program.SteadilyBuilt) : program.Orderly := by
  induction hbuilt with
  | initial => exact .initial
  | @call program call _ hsteady ih =>
    exact (Builder.leads_outcome (Builder.StaysOrderly.call ih hsteady)).orderly

end Whence
