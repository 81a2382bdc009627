import Whence.Proofs.Clauses.Interning

/-!
# Demands unfolded

A demand refers only to demands made before it, so that unfolding what follows it comes to an end.
The result is a tree, in which no demand is referred to by its number.  Since equal demands are kept
once, a demand is known by its tree.
-/

namespace Whence

/-- What a demand asks of one value, whatever follows. -/
inductive Demand.Form where
  | bind (name : Symbol)
  | number
  | text
  | function
  /-- The accepted tags, in order. -/
  | constructor (tags : List Symbol)
  | everything
  deriving DecidableEq, Repr

def Demand.form : Demand → Form
  | .bind name _ => .bind name
  | .number _ => .number
  | .text _ => .text
  | .function _ => .function
  | .constructor cases => .constructor (cases.map Prod.fst)
  | .everything _ => .everything

/-- A demand with all that follows it. -/
inductive DemandTree where
  | done
  | body (expr : ExprId)
  | demand (form : Demand.Form) (following : List DemandTree)

/-- A layer is its form together with what follows it. -/
theorem Demand.eq_of_form_eq {left right : Demand} (hform : left.form = right.form)
    (hnexts : left.nexts = right.nexts) : left = right := by
  cases left with
  | constructor cases =>
    cases right with
    | constructor others =>
      have htags : cases.map Prod.fst = others.map Prod.fst := Form.constructor.inj hform
      have hnexts : cases.map Prod.snd = others.map Prod.snd := hnexts
      exact congrArg _ ((List.zip_of_prod htags hnexts).trans (List.zip_of_prod rfl rfl).symm)
    | _ => cases hform
  | _ =>
    cases right <;> cases hform
    all_goals
      cases hnexts
      rfl

namespace Program

variable {program final : Program} {nexts nexts' : List Next} {trees trees' : List DemandTree}
  {demand : DemandId}

/-- What comes next, one after the other, unfolds to the trees. -/
inductive Unfolds (program : Program) : List Next → List DemandTree → Prop
  | nil : Unfolds program [] []
  | done {nexts : List Next} {trees : List DemandTree} (hrest : Unfolds program nexts trees) :
      Unfolds program (.done :: nexts) (.done :: trees)
  | body {expr : ExprId} {nexts : List Next} {trees : List DemandTree}
      (hrest : Unfolds program nexts trees) :
      Unfolds program (.body expr :: nexts) (.body expr :: trees)
  | demand {demand : DemandId} {layer : Demand} {nexts : List Next}
      {following trees : List DemandTree} (hlayer : program.demands[demand.index]? = some layer)
      (hfollowing : Unfolds program layer.nexts following) (hrest : Unfolds program nexts trees) :
      Unfolds program (.demand demand :: nexts) (.demand layer.form following :: trees)

namespace Unfolds

theorem unique (hunfolds : program.Unfolds nexts trees) (hunfolds' : program.Unfolds nexts trees') :
    trees' = trees := by
  induction hunfolds generalizing trees' with
  | nil =>
    cases hunfolds'
    rfl
  | done _ ih =>
    cases hunfolds' with
    | done hrest => rw [ih hrest]
  | body _ ih =>
    cases hunfolds' with
    | body hrest => rw [ih hrest]
  | demand hlayer _ _ ihfollowing ih =>
    cases hunfolds' with
    | demand hlayer' hfollowing hrest =>
      cases hlayer.symm.trans hlayer'
      rw [ihfollowing hfollowing, ih hrest]

/-- What unfolds to the same trees is the same. -/
theorem injective (hinterned : program.Interned) (hunfolds : program.Unfolds nexts trees)
    (hunfolds' : program.Unfolds nexts' trees) : nexts' = nexts := by
  induction hunfolds generalizing nexts' with
  | nil =>
    cases hunfolds'
    rfl
  | done _ ih =>
    cases hunfolds' with
    | done hrest => rw [ih hrest]
  | body _ ih =>
    cases hunfolds' with
    | body hrest => rw [ih hrest]
  | @demand demand layer nexts following trees hlayer hfollowing hrest ihfollowing ih =>
    generalize hform : layer.form = form at hunfolds'
    cases hunfolds' with
    | demand hlayer' hfollowing' hrest' =>
      cases Demand.eq_of_form_eq hform (ihfollowing hfollowing').symm
      rw [hinterned.eq_of_layer_eq hlayer' hlayer, ih hrest']

/-- Demands that are added do not change what others unfold to. -/
theorem mono (hunfolds : program.Unfolds nexts trees)
    (hkept : ∀ (index : Nat) (layer : Demand), program.demands[index]? = some layer →
      final.demands[index]? = some layer) : final.Unfolds nexts trees := by
  induction hunfolds with
  | nil => exact .nil
  | done _ ih => exact .done ih
  | body _ ih => exact .body ih
  | demand hlayer _ _ ihfollowing ih => exact .demand (hkept _ _ hlayer) ihfollowing ih

/-- Continuations that unfold one by one unfold together. -/
theorem exists_of_forall (hnexts : ∀ next ∈ nexts, ∃ tree, program.Unfolds [next] [tree]) :
    ∃ trees, program.Unfolds nexts trees := by
  induction nexts with
  | nil => exact ⟨[], .nil⟩
  | cons next nexts ih =>
    obtain ⟨⟨tree, hnext⟩, hrest⟩ := List.forall_mem_cons.1 hnexts
    obtain ⟨trees, htrees⟩ := ih hrest
    refine ⟨tree :: trees, ?_⟩
    cases hnext with
    | done _ => exact .done htrees
    | body _ => exact .body htrees
    | demand hlayer hfollowing _ => exact .demand hlayer hfollowing htrees

end Unfolds

namespace Interned

/-- The induction is on the number of the demand, which those that follow do not reach. -/
theorem exists_unfolds (hinterned : program.Interned)
    (hdemand : demand.index < program.demands.size) :
    ∃ tree, program.Unfolds [.demand demand] [tree] := by
  generalize hindex : demand.index = index at hdemand
  induction index using Nat.strongRecOn generalizing demand with
  | ind index ih =>
    have hlayer : program.demands[index]? = some program.demands[index] :=
      Array.getElem?_eq_getElem hdemand
    have hnexts : ∀ next ∈ program.demands[index].nexts, ∃ tree, program.Unfolds [next] [tree] := by
      intro next hnext
      cases next with
      | done => exact ⟨.done, .done .nil⟩
      | body expr => exact ⟨.body expr, .body .nil⟩
      | demand following =>
        have hlt := hinterned.earlier hlayer hnext
        exact ih following.index hlt rfl (Nat.lt_trans hlt hdemand)
    obtain ⟨following, hfollowing⟩ := Unfolds.exists_of_forall hnexts
    exact ⟨_, .demand (hindex ▸ hlayer) hfollowing .nil⟩

/-- A demand unfolds to one tree. -/
theorem existsUnique_unfolds (hinterned : program.Interned)
    (hdemand : demand.index < program.demands.size) :
    ∃! tree, program.Unfolds [.demand demand] [tree] := by
  obtain ⟨tree, hunfolds⟩ := hinterned.exists_unfolds hdemand
  exact ⟨tree, hunfolds, fun other hother ↦ (List.cons.inj (hunfolds.unique hother)).1⟩

/-- Demands are equal if and only if their trees are. -/
theorem eq_iff_tree_eq (hinterned : program.Interned) {left right : DemandId}
    {tree tree' : DemandTree} (hleft : program.Unfolds [.demand left] [tree])
    (hright : program.Unfolds [.demand right] [tree']) : left = right ↔ tree = tree' := by
  constructor
  · rintro rfl
    exact (List.cons.inj (hright.unique hleft)).1
  · rintro rfl
    exact Next.demand.inj (List.cons.inj (Unfolds.injective hinterned hright hleft)).1

end Interned

end Program

end Whence
