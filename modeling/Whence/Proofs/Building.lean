import Whence.Proofs.Calls.Lasting
import Whence.Proofs.Soundness

/-!
# Programs made by the builder

A program is built by any sequence of calls of the builder, those that fail included.  Such a program
has the names of the library and begins with the demands that the evaluator makes itself.
-/

namespace Whence

variable {program : Program}

/-- The program comes from calls of the builder. -/
inductive Program.Built : Program → Prop
  | initial : Built .initial
  | call {program : Program} (call : Builder.Call) : Built program →
      Built (Builder.outcome call.run program).2

/-- What all programs that the builder makes have in common. -/
structure Program.Primed (program : Program) : Prop where
  demands : ∀ {index : Nat} {demand}, initialDemands[index]? = some demand →
    program.demands[index]? = some demand
  names : ∀ {name}, name ∈ initialNames → (program.symbol? name).isSome

/-- Recursive groups consist of function literals. -/
def Program.Literal (program : Program) : Prop :=
  ∀ {group entry}, entry ∈ (program.group group).entries →
    ∃ demand, program.expr entry.function = .function demand

theorem Program.Literal.of_groups_eq_empty (hgroups : program.groups = #[]) : program.Literal := by
  intro group entry hentry
  rw [Program.group, hgroups] at hentry
  cases hentry

namespace SymbolTable

variable {table : SymbolTable} {name other : String} {symbol : Symbol}

/-- A name leads to its symbol once it is interned. -/
theorem symbol?_intern_self (table : SymbolTable) (name : String) :
    (table.intern name).2.symbol? name = some (table.intern name).1 := by
  cases hname : table.symbol? name with
  | some known => simp only [intern, hname]
  | none =>
    simp only [intern, hname]
    simp [symbol?]

/-- A name that is interned twice has one symbol. -/
theorem intern_again (table : SymbolTable) (name : String) :
    ((table.intern name).2.intern name).1 = (table.intern name).1 := by
  have hagain : ∀ {later : SymbolTable} {symbol : Symbol},
      later.symbol? name = some symbol → (later.intern name).1 = symbol := by
    intro later symbol hsymbol
    rw [intern, hsymbol]
  exact hagain (symbol?_intern_self table name)

theorem symbol?_intern_of_some (hsymbol : table.symbol? other = some symbol) (name : String) :
    (table.intern name).2.symbol? other = some symbol := by
  cases hname : table.symbol? name with
  | some known => simpa only [intern, hname] using hsymbol
  | none =>
    have hne : name ≠ other := by
      rintro rfl
      rw [hname] at hsymbol
      cases hsymbol
    simp only [intern, hname]
    rw [symbol?, Std.HashMap.getElem?_insert, if_neg (by simpa using hne)]
    exact hsymbol

theorem symbol?_internAll_of_some (hsymbol : table.symbol? other = some symbol)
    (names : List String) : (table.internAll names).symbol? other = some symbol := by
  induction names generalizing table with
  | nil => exact hsymbol
  | cons name names ih => exact ih (symbol?_intern_of_some hsymbol name)

theorem isSome_symbol?_internAll {names : List String} (hname : name ∈ names)
    (table : SymbolTable) : ((table.internAll names).symbol? name).isSome := by
  induction names generalizing table with
  | nil => cases hname
  | cons first rest ih =>
    obtain rfl | hname := List.mem_cons.1 hname
    · have hinterned : (table.internAll (name :: rest)).symbol? name = some (table.intern name).1 :=
        symbol?_internAll_of_some (symbol?_intern_self table name) rest
      rw [hinterned]
      rfl
    · exact ih hname (table.intern first).2

end SymbolTable

namespace Program

/-- Interns demands one after the other. -/
def internDemands (program : Program) (demands : List Demand) : Program :=
  demands.foldl (fun program demand ↦ (program.internDemand demand).2) program

/-- Declares constructors one after the other. -/
def declareAll (program : Program) (constructors : List (String × Nat × String)) : Program :=
  constructors.foldl (fun program (tag, arity, datatype) ↦ program.declare tag arity datatype) program

variable {P : Program → Prop}

theorem internDemands_keeps {demands : List Demand}
    (hintern : ∀ {program} {demand}, demand ∈ demands → P program →
      P (program.internDemand demand).2) (hprogram : P program) :
    P (program.internDemands demands) :=
  demands.foldlRecOn _ hprogram fun _ hprogram _ hmem ↦ hintern hmem hprogram

theorem declareAll_keeps (hdeclare : ∀ {program} tag arity datatype, P program →
      P (program.declare tag arity datatype)) (constructors : List (String × Nat × String))
    (hprogram : P program) : P (program.declareAll constructors) :=
  constructors.foldlRecOn _ hprogram fun _ hprogram _ _ ↦ hdeclare _ _ _ hprogram

theorem initial_eq : initial = (internDemands
    { symbols := SymbolTable.empty.internAll initialNames } initialDemands).declareAll
      initialConstructors :=
  rfl

end Program

namespace Program.Primed

theorem intern (hprimed : program.Primed) (name : String) : (program.intern name).2.Primed where
  demands := hprimed.demands
  names hname := by
    obtain ⟨symbol, hsymbol⟩ := Option.isSome_iff_exists.1 (hprimed.names hname)
    have hinterned : (program.intern name).2.symbol? _ = some symbol :=
      SymbolTable.symbol?_intern_of_some hsymbol name
    rw [hinterned]
    rfl

theorem declare (hprimed : program.Primed) (tag : String) (arity : Nat) (datatype : String) :
    (program.declare tag arity datatype).Primed := by
  have hinterned := (hprimed.intern tag).intern datatype
  unfold Program.declare
  dsimp only
  split
  · exact ⟨hinterned.demands, hinterned.names⟩
  · exact ⟨hinterned.demands, hinterned.names⟩

theorem pushExpr (hprimed : program.Primed) (expr : Expr) : (program.pushExpr expr).2.Primed :=
  ⟨hprimed.demands, hprimed.names⟩

theorem pushGroup (hprimed : program.Primed) (group : Group) : (program.pushGroup group).2.Primed :=
  ⟨hprimed.demands, hprimed.names⟩

theorem internDemand (hprimed : program.Primed) (demand : Demand) :
    (program.internDemand demand).2.Primed := by
  unfold Program.internDemand
  split
  · exact hprimed
  · refine ⟨fun {index _} hinitial ↦ ?_, hprimed.names⟩
    have hpresent := hprimed.demands hinitial
    have hindex := (Array.getElem?_eq_some_iff.1 hpresent).1
    rw [Array.getElem?_push, if_neg (Nat.ne_of_lt hindex), hpresent]

theorem symbols_internDemand (program : Program) (demand : Demand) :
    (program.internDemand demand).2.symbols = program.symbols := by
  unfold Program.internDemand
  split <;> rfl

theorem symbols_internDemands (program : Program) (demands : List Demand) :
    (program.internDemands demands).symbols = program.symbols :=
  internDemands_keeps (P := fun final ↦ final.symbols = program.symbols)
    (fun _ hsame ↦ (symbols_internDemand _ _).trans hsame) rfl

theorem initial : Program.initial.Primed := by
  rw [initial_eq]
  refine declareAll_keeps (P := Primed) (fun tag arity datatype hprimed ↦
    hprimed.declare tag arity datatype) _ ⟨fun hinitial ↦ ?_, fun {name} hname ↦ ?_⟩
  · rw [← hinitial]
    simp [internDemands, initialDemands, Program.internDemand]
  · rw [Program.symbol?, symbols_internDemands]
    generalize initialNames = names at hname
    exact SymbolTable.isSome_symbol?_internAll hname .empty

end Program.Primed

namespace Builder

/-- Every call leaves a program primed. -/
theorem Lasts.primed : Lasts Program.Primed where
  intern name := fun _ hprimed ↦ hprimed.intern name
  declare tag arity datatype := fun _ hprimed ↦ hprimed.declare tag arity datatype
  pushExpr expr := fun _ hprimed ↦ hprimed.pushExpr expr
  pushGroup group := fun _ hprimed ↦ hprimed.pushGroup group
  internDemand layer _ := fun _ hprimed ↦ hprimed.internDemand layer
  compileAll clauses program hprimed := by
    have hcourse : Course Program.Primed (fun _ final ↦ final.Primed) fun _ _ ↦ True :=
      ⟨id, fun _ hfinal ↦ hfinal, id, fun _ _ ↦ trivial, fun name hprimed ↦ hprimed.intern name⟩
    exact leads_outcome (hcourse.compileAll
      (fun hprimed _ ↦ ⟨hprimed.internDemand _, trivial⟩)
      (fun _ _ ↦ ⟨fun _ _ ↦ trivial, fun _ _ ↦ trivial⟩) hprimed fun _ _ ↦ trivial)

end Builder

theorem Program.Built.primed (hbuilt : program.Built) : program.Primed := by
  induction hbuilt with
  | initial => exact .initial
  | call call _ ih => exact Builder.Lasts.primed.call call _ ih

/-- The demands that evaluation makes itself are found at their places. -/
theorem Program.Built.demand_eq (hbuilt : program.Built) {index : Nat} {demand : Demand}
    (hinitial : initialDemands[index]? = some demand) : program.demand ⟨index⟩ = demand := by
  rw [Program.demand, hbuilt.primed.demands hinitial, Option.getD_some]

theorem Program.Built.regular (hbuilt : program.Built) (hliteral : program.Literal) :
    program.Regular :=
  ⟨hbuilt.demand_eq rfl, hbuilt.demand_eq rfl, hbuilt.demand_eq rfl, hbuilt.demand_eq rfl, hliteral⟩

/-! ## Small programs -/

namespace Program

/-- The first program has no expressions and no groups. -/
theorem initial_empty : initial.exprs = #[] ∧ initial.groups = #[] := by
  let P (program : Program) := program.exprs = #[] ∧ program.groups = #[]
  have hintern {program : Program} {demand : Demand} (hempty : P program) :
      P (program.internDemand demand).2 := by
    unfold internDemand
    split <;> exact hempty
  have hdeclare {program : Program} (tag : String) (arity : Nat) (datatype : String)
      (hempty : P program) : P (program.declare tag arity datatype) := by
    unfold declare
    dsimp only
    split <;> exact hempty
  rw [initial_eq]
  exact declareAll_keeps (P := P) hdeclare _
    (internDemands_keeps (P := P) (fun _ hempty ↦ hintern hempty) ⟨rfl, rfl⟩)

/-- Two texts, of which the second is used nowhere. -/
def twoTexts : Program :=
  (Builder.outcome (Builder.Call.text "spare").run
    (Builder.outcome (Builder.Call.text "used").run .initial).2).2

theorem twoTexts_built : twoTexts.Built := .call _ (.call _ .initial)

theorem twoTexts_exprs : twoTexts.exprs = #[.text "used", .text "spare"] := by
  change (initial.exprs.push (.text "used")).push (.text "spare") = _
  rw [initial_empty.1]
  rfl

theorem twoTexts_literal : twoTexts.Literal := by
  apply Literal.of_groups_eq_empty
  exact initial_empty.2

/-- The program `let x = "used" in x`. -/
def oneLet : Program :=
  let calls : List Builder.Call := [.text "used", .var "x", .letIn "x" ⟨0⟩ ⟨1⟩]
  calls.foldl (fun program call ↦ (Builder.outcome call.run program).2) .initial

theorem oneLet_built : oneLet.Built := .call _ (.call _ (.call _ .initial))

theorem oneLet_spec : ∃ name, oneLet.expr ⟨0⟩ = .text "used" ∧ oneLet.expr ⟨1⟩ = .var name ∧
    oneLet.expr ⟨2⟩ = .letIn name ⟨0⟩ ⟨1⟩ := by
  let table := initial.symbols
  have hexprs : oneLet.exprs = #[.text "used", .var (table.intern "x").1,
      .letIn (table.intern "x").1 ⟨0⟩ ⟨1⟩] := by
    change ((initial.exprs.push (.text "used")).push (.var (table.intern "x").1)).push
      (.letIn ((table.intern "x").2.intern "x").1 ⟨0⟩ ⟨1⟩) = _
    rw [SymbolTable.intern_again, initial_empty.1]
    rfl
  refine ⟨(table.intern "x").1, ?_⟩
  simp only [expr, hexprs]
  exact ⟨rfl, rfl, rfl⟩

theorem oneLet_literal : oneLet.Literal := by
  apply Literal.of_groups_eq_empty
  exact initial_empty.2

end Program

end Whence
