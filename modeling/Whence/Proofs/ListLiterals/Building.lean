import Whence.Proofs.Calls.Failing
import Whence.Proofs.Clauses.Correctness

/-!
# The list literals of the builder

The builder makes a list of numbers out of cells, from the end to the beginning.  Whatever is built
later, all expressions stay in their places, and so the list stays the list of these numbers.
-/

namespace Whence

namespace Program

variable {program middle final : Program} {expr : ExprId} {values : List Number}

/-- The second program has all expressions of the first one in their places. -/
def KeepsExprs (program final : Program) : Prop :=
  ∀ (index : Nat) (form : Expr),
    program.exprs[index]? = some form → final.exprs[index]? = some form

theorem KeepsExprs.refl (program : Program) : program.KeepsExprs program :=
  fun _ _ hform ↦ hform

theorem KeepsExprs.trans (hfirst : program.KeepsExprs middle) (hsecond : middle.KeepsExprs final) :
    program.KeepsExprs final :=
  fun index form hform ↦ hsecond index form (hfirst index form hform)

theorem keepsExprs_pushExpr (program : Program) (form : Expr) :
    program.KeepsExprs (program.pushExpr form).2 := by
  intro index held hheld
  have hindex : index < program.exprs.size := (Array.getElem?_eq_some_iff.1 hheld).1
  simp only [pushExpr, Array.getElem?_push, if_neg (Nat.ne_of_lt hindex), hheld]

theorem exprs_pushExpr (program : Program) (form : Expr) :
    (program.pushExpr form).2.exprs[(program.pushExpr form).1.index]? = some form := by
  simp [pushExpr]

theorem expr_of_exprs {form : Expr} (hform : program.exprs[expr.index]? = some form) :
    program.expr expr = form := by
  rw [Program.expr, hform, Option.getD_some]

/-- The expression is the list of the numbers: an end, or a cell with a literal and a list. -/
inductive Lists (program : Program) : ExprId → List Number → Prop
  | nil {expr : ExprId} (hexpr : program.exprs[expr.index]? = some (.constructor .nilTag [])) :
      Lists program expr []
  | cons {expr head tail : ExprId} {value : Number} {values : List Number}
      (hexpr : program.exprs[expr.index]? = some (.constructor .consTag [head, tail]))
      (hhead : program.exprs[head.index]? = some (.number value))
      (htail : Lists program tail values) : Lists program expr (value :: values)

theorem Lists.keep (hlists : program.Lists expr values) (hkeeps : program.KeepsExprs final) :
    final.Lists expr values := by
  induction hlists with
  | nil hexpr => exact .nil (hkeeps _ _ hexpr)
  | cons hexpr hhead _ ih => exact .cons (hkeeps _ _ hexpr) (hkeeps _ _ hhead) ih

/-- An expression is one list at most. -/
theorem Lists.unique (hlists : program.Lists expr values) {values' : List Number}
    (hlists' : program.Lists expr values') : values' = values := by
  induction hlists generalizing values' with
  | nil hexpr =>
    cases hlists' with
    | nil _ => rfl
    | cons hexpr' _ _ => cases hexpr.symm.trans hexpr'
  | cons hexpr hhead _ ih =>
    cases hlists' with
    | nil hexpr' => cases hexpr.symm.trans hexpr'
    | cons hexpr' hhead' htail' =>
      cases hexpr.symm.trans hexpr'
      cases hhead.symm.trans hhead'
      rw [ih htail']

theorem exprs_declare (program : Program) (tag : String) (arity : Nat) (datatype : String) :
    (program.declare tag arity datatype).exprs = program.exprs := by
  unfold declare
  dsimp only
  split <;> rfl

theorem KeepsExprs.spares (hkeeps : program.KeepsExprs middle)
    (hspares : Builder.Spares middle final) : program.KeepsExprs final := by
  intro index form hform
  rw [hspares.exprs, hkeeps index form hform]

/-- Every call keeps the expressions. -/
theorem lasts_keepsExprs (program : Program) : Builder.Lasts program.KeepsExprs where
  intern _ _ hkeeps := hkeeps
  declare tag arity datatype final hkeeps := by
    intro index form hform
    change (final.declare tag arity datatype).exprs[index]? = some form
    rw [exprs_declare, hkeeps index form hform]
  pushExpr form final hkeeps := hkeeps.trans (keepsExprs_pushExpr final form)
  pushGroup _ _ hkeeps := hkeeps
  internDemand layer _ final hkeeps := hkeeps.spares (Builder.spares_internDemand final layer)
  compileAll clauses final hkeeps :=
    hkeeps.spares (Builder.leads_outcome (Builder.spares_compileAll clauses final))

theorem BuiltFrom.keepsExprs (hbuilt : program.BuiltFrom final) : program.KeepsExprs final := by
  induction hbuilt with
  | refl => exact .refl program
  | call call _ ih => exact (lasts_keepsExprs program).call call _ ih

end Program

namespace Builder

variable {program : Program}

theorem pushExpr_eq (form : Expr) (program : Program) :
    pushExpr form program = .ok (program.pushExpr form).1 (program.pushExpr form).2 := rfl

/-- The numbers are made one after the other. -/
theorem mapM_number (values : List Number) (program : Program) :
    ∃ items final, values.mapM number program = .ok items final ∧ program.KeepsExprs final ∧
      List.Forall₂ (fun item value ↦ final.exprs[ExprId.index item]? = some (.number value)) items
        values := by
  induction values generalizing program with
  | nil => exact ⟨[], program, rfl, .refl program, .nil⟩
  | cons value values ih =>
    let first := program.pushExpr (.number value)
    obtain ⟨items, final, hrest, hkeeps, hitems⟩ := ih first.2
    have hrun : (value :: values).mapM number program = .ok (first.1 :: items) final := by
      simp only [List.mapM_cons, run_bind, number, pushExpr_eq]
      rw [hrest]
      rfl
    refine ⟨first.1 :: items, final, hrun, ?_, ?_⟩
    · exact (Program.keepsExprs_pushExpr program _).trans hkeeps
    · exact .cons (hkeeps _ _ (Program.exprs_pushExpr program _)) hitems

/-- The cells are put before a list, the last one first. -/
theorem foldrM_cons {items : List ExprId} {values : List Number}
    (hitems : List.Forall₂ (fun item value ↦ program.exprs[ExprId.index item]? =
      some (.number value)) items values) {tail : ExprId} (htail : program.Lists tail []) :
    ∃ expr final, items.foldrM cons tail program = .ok expr final ∧ program.KeepsExprs final ∧
      final.Lists expr values := by
  induction hitems with
  | nil => exact ⟨tail, program, rfl, .refl program, htail⟩
  | @cons item value items values hitem _ ih =>
    obtain ⟨rest, middle, hrest, hkeeps, hlists⟩ := ih
    let cell := middle.pushExpr (.constructor .consTag [item, rest])
    have hcell : middle.KeepsExprs cell.2 := Program.keepsExprs_pushExpr middle _
    refine ⟨cell.1, cell.2, ?_, hkeeps.trans hcell, ?_⟩
    · simp only [List.foldrM_cons, run_bind, hrest]
      rfl
    · exact .cons (Program.exprs_pushExpr middle _) (hcell _ _ (hkeeps _ _ hitem)) (hlists.keep hcell)

theorem numbers_lists (values : List Number) (program : Program) :
    ∃ expr final, numbers values program = .ok expr final ∧ final.Lists expr values := by
  obtain ⟨items, middle, hitems, -, hforall⟩ := mapM_number values program
  let nil := middle.pushExpr (.constructor .nilTag [])
  have hnil : middle.KeepsExprs nil.2 := Program.keepsExprs_pushExpr middle _
  have hempty : nil.2.Lists nil.1 [] := .nil (Program.exprs_pushExpr middle _)
  obtain ⟨expr, final, hcells, -, hlists⟩ :=
    foldrM_cons (hforall.imp fun _ _ hitem ↦ hnil _ _ hitem) hempty
  refine ⟨expr, final, ?_, hlists⟩
  simp only [numbers, list, Builder.nil, run_bind, hitems, pushExpr_eq, List.foldlM_reverse]
  exact hcells

end Builder

end Whence
