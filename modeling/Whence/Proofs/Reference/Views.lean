import Whence.Proofs.Reference.Agreement
import Whence.Proofs.Views

/-!
# Views of data

The value of a node with all parts in place says how the node is shown: nodes with the same data look
the same, whatever their stores have in common otherwise.
-/

namespace Whence.Reference

variable {store store' : Store} {node node' : NodeId} {datum : Datum}

theorem parts_of_atom {value : Value} (hatom : ∀ tag args, value ≠ .constructor tag args) :
    value.parts = [] := by
  cases value with
  | constructor tag args => exact absurd rfl (hatom tag args)
  | _ => rfl

mutual

/-- What has all its parts in place has a value to the bottom. -/
theorem Inlines.forced {node : NodeId} {datum : Datum} :
    Inlines store node datum → Forced store (fun _ ↦ True) node
  | .atom hvalue hatom _ => .intro trivial hvalue (parts_of_atom hatom ▸ List.forall_mem_nil _)
  | .constructor hvalue hargs => .intro trivial hvalue hargs.forced

theorem InlinesAll.forced {nodes : List NodeId} {data : List Datum} :
    InlinesAll store nodes data → ∀ node ∈ nodes, Forced store (fun _ ↦ True) node
  | .nil => List.forall_mem_nil _
  | .cons hnode hnodes => List.forall_mem_cons.2 ⟨hnode.forced, hnodes.forced⟩

end

/-- Values that stand for the same datum are of the same form. -/
theorem ValueMeans.resembles {relates : NodeId → NodeId → Prop} {value value' : Value}
    (hatom : ∀ tag args, value ≠ .constructor tag args) (hmeans : ValueMeans store value datum)
    (hmeans' : ValueMeans store' value' datum) : value.Resembles relates value' := by
  cases hmeans with
  | number =>
    cases hmeans'
    exact .number
  | text =>
    cases hmeans'
    exact .text
  | @closure closure context _ _ =>
    generalize hdatum : Datum.closure context closure.function = datum at hmeans'
    cases hmeans' with
    | closure => exact .closure (Datum.closure.inj hdatum).2
    | _ => cases hdatum
  | unary | binary =>
    cases hmeans'
    exact .primitive rfl
  | @partially op _ first _ _ =>
    generalize hdatum : Datum.partially op (.ofForm first) = datum at hmeans'
    cases hmeans' with
    | partially => exact .primitive (congrArg BinaryOp.name (Datum.partially.inj hdatum).1)
    | _ => cases hdatum
  | constructor _ => exact absurd rfl (hatom _ _)

theorem ValueMeans.exists_constructor {tag : Symbol} {thunks : List Thunk} {value : Value}
    (hmeans : ValueMeans store value (.constructor tag thunks)) :
    ∃ args, value = .constructor tag args := by
  cases hmeans with
  | constructor _ => exact ⟨_, rfl⟩

/-- What there is of a constructor: a constructor that has the parts in place. -/
theorem Inlines.exists_constructor {tag : Symbol} {data : List Datum}
    (hinlines : Inlines store node (.constructor tag (data.map Thunk.given))) :
    ∃ args, store.value? node = some (.constructor tag args) ∧ InlinesAll store args data := by
  generalize hdatum : Datum.constructor tag (data.map Thunk.given) = datum at hinlines
  cases hinlines with
  | atom _ hatom hmeans =>
    obtain ⟨args, hvalue⟩ := (hdatum ▸ hmeans).exists_constructor
    exact absurd hvalue (hatom tag args)
  | constructor hvalue hargs =>
    obtain ⟨rfl, hdata⟩ := Datum.constructor.inj hdatum
    obtain rfl := List.map_injective_iff.2 (fun _ _ ↦ Thunk.given.inj) hdata
    exact ⟨_, hvalue, hargs⟩

theorem InlinesAll.forall₂ {nodes nodes' : List NodeId} {data : List Datum} :
    InlinesAll store nodes data → InlinesAll store' nodes' data →
      List.Forall₂ (fun node node' ↦ ∃ datum, Inlines store node datum ∧ Inlines store' node' datum)
        nodes nodes'
  | .nil, .nil => .nil
  | .cons hnode hnodes, .cons hnode' hnodes' => .cons ⟨_, hnode, hnode'⟩ (hnodes.forall₂ hnodes')

/-- Nodes with the same data look the same. -/
theorem Inlines.resembles {steps : Nat} (hends : store.EndsWithin steps node)
    (hinlines : Inlines store node datum) (hinlines' : Inlines store' node' datum) :
    store.Resembles store' steps node node' := by
  induction steps generalizing node node' datum with
  | zero => exact hends.elim
  | succ steps ih =>
    obtain ⟨held, hheld, hparts⟩ := hends
    cases hinlines with
    | atom hvalue hatom hmeans =>
      cases hinlines' with
      | atom hvalue' _ hmeans' => exact ⟨_, _, hvalue, hvalue', hmeans.resembles hatom hmeans'⟩
      | constructor _ _ =>
        obtain ⟨args, hconstructor⟩ := hmeans.exists_constructor
        exact absurd hconstructor (hatom _ args)
    | constructor hvalue hargs =>
      obtain ⟨args', hvalue', hargs'⟩ := hinlines'.exists_constructor
      cases hheld.symm.trans hvalue
      refine ⟨_, _, hvalue, hvalue', (Value.Resembles.constructor (hargs.forall₂ hargs')).mono ?_⟩
      exact fun part hpart _ ⟨datum, hinlines, hinlines'⟩ ↦ ih (hparts part hpart) hinlines hinlines'

/-- Nodes with the same data are shown in the same way. -/
theorem Inlines.view_eq (program : Program) (hinlines : Inlines store node datum)
    (hinlines' : Inlines store' node' datum) :
    View.of store' program node' = View.of store program node := by
  have hends := hinlines.forced.endsWithin
  have hends' := hinlines'.forced.endsWithin
  obtain hle | hle := Nat.le_total store.size store'.size
  · exact View.of_resembles (hinlines.resembles hends hinlines') le_rfl hle
  · exact (View.of_resembles (hinlines'.resembles hends' hinlines) le_rfl hle).symm

end Whence.Reference
