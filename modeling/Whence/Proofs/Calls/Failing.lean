import Whence.Proofs.Calls.Courses

/-!
# Calls that fail

A call that fails has added no expression and no group, since only constructors that are not declared
and clauses that cannot be joined make it fail, and expressions are made afterwards.  The other calls
return expressions that are there.
-/

namespace Whence.Builder

variable {program : Program} {α β : Type}

/-- The step succeeds, and its result is as said. -/
def Succeeds (step : Builder α) (done : α → Program → Prop) : Prop :=
  ∀ program, Stops step program done fun _ ↦ False

/-- The program has the expression. -/
def Present (id : ExprId) (program : Program) : Prop := id.index < program.exprs.size

namespace Succeeds

variable {step : Builder α} {done : α → Program → Prop}

theorem pushExpr (expr : Expr) : Succeeds (Builder.pushExpr expr) Present := by
  intro program
  change program.exprs.size < (program.exprs.push expr).size
  simp

theorem intern (name : String) : Succeeds (Builder.intern name) fun _ _ ↦ True :=
  fun _ ↦ trivial

theorem internDemand (layer : Demand) : Succeeds (Builder.internDemand layer) fun _ _ ↦ True :=
  fun _ ↦ trivial

theorem pushGroup (group : Group) : Succeeds (Builder.pushGroup group) fun _ _ ↦ True :=
  fun _ ↦ trivial

theorem of_pure (result : α) : Succeeds (pure result) fun _ _ ↦ True :=
  fun _ ↦ trivial

theorem bind {next : α → Builder β} {done' : β → Program → Prop} (hstep : Succeeds step done)
    (hnext : ∀ result, Succeeds (next result) done') : Succeeds (step >>= next) done' :=
  fun program ↦ Stops.bind (hstep program) (fun _ ↦ hnext _ _) id

section Loops

variable {step : β → α → Builder β} {done : β → Program → Prop}
  (hstep : ∀ state item, Succeeds (step state item) done)
include hstep

theorem foldlM (start : β) (items : List α) :
    Succeeds (items.foldlM step start) fun _ _ ↦ True := by
  induction items generalizing start with
  | nil => exact of_pure start
  | cons item items ih =>
    rw [List.foldlM_cons]
    exact (hstep start item).bind ih

/-- The result of a loop is the one of its last step. -/
theorem foldlM_of_ne_nil (start : β) {items : List α} (hitems : items ≠ []) :
    Succeeds (items.foldlM step start) done := by
  rw [← List.dropLast_concat_getLast hitems, List.foldlM_append]
  refine (foldlM hstep start items.dropLast).bind fun state ↦ ?_
  rw [List.foldlM_cons]
  exact fun program ↦ Stops.bind (hstep state _ program) id id

end Loops

theorem mapM {step : α → Builder β} {done : β → Program → Prop}
    (hstep : ∀ item, Succeeds (step item) done) (items : List α) :
    Succeeds (items.mapM step) fun _ _ ↦ True := by
  induction items with
  | nil => exact of_pure []
  | cons item items ih =>
    rw [List.mapM_cons]
    exact (hstep item).bind fun first ↦ ih.bind fun rest ↦ of_pure (first :: rest)

theorem named (name : String) {wrap : Symbol → Expr} :
    Succeeds (do let symbol ← Builder.intern name; Builder.pushExpr (wrap symbol)) Present :=
  (intern name).bind fun _ ↦ pushExpr _

theorem list (items : List ExprId) : Succeeds (Builder.list items) Present := by
  cases items with
  | nil => exact pushExpr _
  | cons item items =>
    exact (pushExpr _).bind fun _ ↦ foldlM_of_ne_nil (fun _ _ ↦ pushExpr _) _ (by simp)

theorem group (entries : List (String × ExprId)) :
    Succeeds (Builder.group entries) fun _ _ ↦ True := by
  have hentry : ∀ entry : String × ExprId,
      Succeeds (do let symbol ← Builder.intern entry.1; pure (GroupEntry.mk symbol entry.2))
        fun _ _ ↦ True :=
    fun entry ↦ (intern entry.1).bind fun _ ↦ of_pure _
  exact (mapM hentry entries).bind fun _ ↦ pushGroup _

end Succeeds

/-- No expression and no group has been added. -/
structure Spares (program final : Program) : Prop where
  exprs : final.exprs = program.exprs
  groups : final.groups = program.groups

theorem spares_internDemand (program : Program) (layer : Demand) :
    Spares program (program.internDemand layer).2 := by
  unfold Program.internDemand
  split <;> exact ⟨rfl, rfl⟩

theorem Course.spares (start : Program) :
    Course (Spares start) (fun _ final ↦ Spares start final) fun _ _ ↦ True where
  refl hspares := hspares
  trans _ hfinal := hfinal
  kept hfinal := hfinal
  stays _ _ := trivial
  intern _ hspares := ⟨hspares.exprs, hspares.groups⟩

/-- Compiling adds no expression and no group, whether it succeeds or fails. -/
theorem spares_compileAll (clauses : List Clause) (program : Program) :
    Brings (fun _ final ↦ Spares program final) (Clause.compileAll clauses) program
      fun _ _ ↦ True := by
  have hdemand : ∀ {final : Program} {layer : Demand}, Spares program final →
      Spares program (final.internDemand layer).2 := by
    intro final layer hspares
    have hsame := spares_internDemand final layer
    exact ⟨hsame.exprs.trans hspares.exprs, hsame.groups.trans hspares.groups⟩
  exact (Course.spares program).compileAll (fun hspares _ ↦ ⟨hdemand hspares, trivial⟩)
    (fun _ _ ↦ ⟨fun _ _ ↦ trivial, fun _ _ ↦ trivial⟩) ⟨rfl, rfl⟩ fun _ _ ↦ trivial

/-- The call makes nothing, and returns the expression that it is given. -/
def Call.HandsBack : Call → Prop
  | .apply _ [] => True
  | _ => False

/-- An expression that is returned is there, unless it was only handed back, and a call that fails has
added no expression and no group. -/
def Call.Settles (call : Call) (program : Program) (step : Builder Answer) : Prop :=
  Stops step program
    (fun answer final ↦ ¬call.HandsBack → ∀ id, answer = .expr id → Present id final) (Spares program)

namespace Call

variable {call : Call}

theorem settles_of_succeeds {step : Builder ExprId} (hstep : Succeeds step Present) :
    call.Settles program (Answer.expr <$> step) := by
  rw [map_eq_pure_bind]
  refine Stops.bind (hstep program) (fun hexists _ id hsame ↦ ?_) False.elim
  cases hsame
  exact hexists

theorem settles_of_other {step : Builder α} {done : α → Program → Prop} {wrap : α → Answer}
    (hstep : Succeeds step done) (hwrap : ∀ result id, wrap result ≠ .expr id) :
    call.Settles program (wrap <$> step) := by
  rw [map_eq_pure_bind]
  exact Stops.bind (hstep program) (fun _ _ id hsame ↦ absurd hsame (hwrap _ id)) False.elim

/-- The first part may fail, and the second one makes the expression. -/
theorem settles_of_bind {step : Builder α} {next : α → Builder ExprId}
    (hstep : Brings (fun _ final ↦ Spares program final) step program fun _ _ ↦ True)
    (hnext : ∀ result, Succeeds (next result) Present) :
    call.Settles program (Answer.expr <$> (step >>= next)) := by
  rw [map_eq_pure_bind, bind_assoc]
  refine Stops.bind hstep (fun {result middle} _ ↦ ?_) id
  refine Stops.bind (hnext result middle) (fun hexists _ id hsame ↦ ?_) False.elim
  cases hsame
  exact hexists

theorem settles (call : Call) (program : Program) : call.Settles program call.answer := by
  cases call with
  | declare tag arity datatype => exact fun _ _ hsame ↦ nomatch hsame
  | number value => exact settles_of_succeeds (.pushExpr _)
  | text value => exact settles_of_succeeds (.pushExpr _)
  | var name => exact settles_of_succeeds (.named name)
  | op name => exact settles_of_succeeds (.named name)
  | constructor tag args =>
    have hconstructor := (Course.spares program).constructorOf ⟨rfl, rfl⟩ tag args.length
    exact settles_of_bind hconstructor fun _ ↦ .pushExpr _
  | nil => exact settles_of_succeeds (.pushExpr _)
  | cons head tail => exact settles_of_succeeds (.pushExpr _)
  | pair first second => exact settles_of_succeeds (.pushExpr _)
  | boolean value => exact settles_of_succeeds (.pushExpr _)
  | list items => exact settles_of_succeeds (.list items)
  | numbers values =>
    exact settles_of_succeeds ((Succeeds.mapM (fun _ ↦ .pushExpr _) values).bind .list)
  | app operator argument => exact settles_of_succeeds (.pushExpr _)
  | apply operator arguments =>
    cases arguments with
    | nil => exact fun hmakes ↦ absurd trivial hmakes
    | cons argument arguments =>
      exact settles_of_succeeds
        (.foldlM_of_ne_nil (fun _ _ ↦ .pushExpr _) operator (List.cons_ne_nil _ _))
  | binary left name right =>
    exact settles_of_succeeds ((Succeeds.named name).bind fun _ ↦
      (Succeeds.pushExpr _).bind fun _ ↦ .pushExpr _)
  | lambda name body =>
    exact settles_of_succeeds ((Succeeds.intern name).bind fun _ ↦
      (Succeeds.internDemand _).bind fun _ ↦ .pushExpr _)
  | function clauses => exact settles_of_bind (spares_compileAll clauses program) fun _ ↦ .pushExpr _
  | matching scrutinee clauses =>
    exact settles_of_bind (spares_compileAll clauses program) fun _ ↦ .pushExpr _
  | ifThenElse condition yes no =>
    exact settles_of_succeeds ((Succeeds.internDemand _).bind fun _ ↦ .pushExpr _)
  | letIn name bound body => exact settles_of_succeeds (.named name)
  | group entries => exact settles_of_other (.group entries) nofun
  | letRec entries body =>
    exact settles_of_succeeds ((Succeeds.group entries).bind fun _ ↦ .pushExpr _)
  | defineValue name bound =>
    exact settles_of_other ((Succeeds.intern name).bind fun _ ↦ .of_pure _) nofun
  | definePrimitive name op =>
    exact settles_of_other ((Succeeds.intern name).bind fun _ ↦
      (Succeeds.intern op).bind fun _ ↦ .of_pure _) nofun
  | defineGroup entries =>
    exact settles_of_other ((Succeeds.group entries).bind fun _ ↦ .of_pure _) nofun
  | defs definitions body => exact settles_of_succeeds (.pushExpr _)

end Call

end Whence.Builder
