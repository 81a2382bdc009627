import Whence.Proofs.Parts
import Whence.View.Basic

/-!
# Views last

A view of a node shows the values of its parts and nothing else of the store.  If the node has
a value to the bottom, every node that looks the same, in whatever store, is shown in the same way,
and the view stays as it is when the store grows.  The bounds on chains of cells and on the depth are
not met then, and nothing is cut.
-/

namespace Whence

variable {store store' : Store} {program : Program} {node node' : NodeId} {steps : Nat}

/-- Some number of steps is just enough to come to the bottom. -/
theorem Store.EndsWithin.exists_least (hends : store.EndsWithin steps node) :
    ∃ least < steps, store.EndsWithin (least + 1) node ∧ ¬store.EndsWithin least node := by
  induction steps with
  | zero => exact hends.elim
  | succ steps ih =>
    by_cases hfewer : store.EndsWithin steps node
    · obtain ⟨least, hlt, hleast⟩ := ih hfewer
      exact ⟨least, Nat.lt_succ_of_lt hlt, hleast⟩
    · exact ⟨steps, Nat.lt_succ_self steps, hends, hfewer⟩

/-- The values are of the same form, and their parts are related one by one. -/
inductive Value.Resembles (relates : NodeId → NodeId → Prop) : Value → Value → Prop
  | number {value : Number} : Resembles relates (.number value) (.number value)
  | text {value : String} : Resembles relates (.text value) (.text value)
  | closure {closure closure' : Closure} : closure.function = closure'.function →
      Resembles relates (.closure closure) (.closure closure')
  | primitive {primitive primitive' : PrimitiveValue} : primitive.name = primitive'.name →
      Resembles relates (.primitive primitive) (.primitive primitive')
  | constructor {tag : Symbol} {args args' : List NodeId} : List.Forall₂ relates args args' →
      Resembles relates (.constructor tag args) (.constructor tag args')

namespace Value.Resembles

variable {relates relates' : NodeId → NodeId → Prop} {value value' : Value}

theorem symm (hresembles : value.Resembles relates value') :
    value'.Resembles (fun part' part ↦ relates part part') value := by
  cases hresembles with
  | number => exact .number
  | text => exact .text
  | closure hfunction => exact .closure hfunction.symm
  | primitive hname => exact .primitive hname.symm
  | constructor hargs => exact .constructor hargs.flip

theorem mono (hresembles : value.Resembles relates value')
    (hmono : ∀ part ∈ value.parts, ∀ {part'}, relates part part' → relates' part part') :
    value.Resembles relates' value' := by
  cases hresembles with
  | number => exact .number
  | text => exact .text
  | closure hfunction => exact .closure hfunction
  | primitive hname => exact .primitive hname
  | constructor hargs =>
    have hparts := (List.forall₂_and_left _ _).2 ⟨fun part hpart ↦ hpart, hargs⟩
    exact .constructor (hparts.imp fun _ _ hpart ↦ hmono _ hpart.1 hpart.2)

theorem parts {property : NodeId → Prop} (hresembles : value.Resembles relates value')
    (hrelates : ∀ {part part'}, relates part part' → property part) :
    ∀ part ∈ value.parts, property part := by
  cases hresembles with
  | constructor hargs =>
    have hparts := hargs.imp fun _ _ hpart ↦ And.intro (hrelates hpart) hpart
    exact ((List.forall₂_and_left _ _).1 hparts).1
  | _ => exact List.forall_mem_nil _

end Value.Resembles

namespace Store

/-- The nodes have values of the same form, and so have their parts, down to the bottom, which takes
fewer than `steps` steps. -/
def Resembles (store store' : Store) : Nat → NodeId → NodeId → Prop
  | 0, _, _ => False
  | steps + 1, node, node' => ∃ value value', store.value? node = some value ∧
      store'.value? node' = some value' ∧ value.Resembles (store.Resembles store' steps) value'

namespace Resembles

theorem symm (hresembles : store.Resembles store' steps node node') :
    store'.Resembles store steps node' node := by
  induction steps generalizing node node' with
  | zero => exact hresembles.elim
  | succ steps ih =>
    obtain ⟨value, value', hvalue, hvalue', hform⟩ := hresembles
    exact ⟨value', value, hvalue', hvalue, hform.symm.mono fun _ _ _ hpart ↦ ih hpart⟩

theorem endsWithin (hresembles : store.Resembles store' steps node node') :
    store.EndsWithin steps node := by
  induction steps generalizing node node' with
  | zero => exact hresembles.elim
  | succ steps ih =>
    obtain ⟨value, _, hvalue, -, hform⟩ := hresembles
    exact ⟨value, hvalue, hform.parts fun hpart ↦ ih hpart⟩

/-- Nodes that look the same do so within as many steps as the first one needs. -/
theorem of_endsWithin {least : Nat} (hresembles : store.Resembles store' steps node node')
    (hends : store.EndsWithin least node) : store.Resembles store' least node node' := by
  induction least generalizing steps node node' with
  | zero => exact hends.elim
  | succ least ih =>
    cases steps with
    | zero => exact hresembles.elim
    | succ steps =>
      obtain ⟨value, value', hvalue, hvalue', hform⟩ := hresembles
      obtain ⟨held, hheld, hparts⟩ := hends
      cases hvalue.symm.trans hheld
      exact ⟨value, value', hvalue, hvalue',
        hform.mono fun part hpart _ hlook ↦ ih hlook (hparts part hpart)⟩

theorem succ (hresembles : store.Resembles store' steps node node') :
    store.Resembles store' (steps + 1) node node' :=
  hresembles.of_endsWithin hresembles.endsWithin.succ

end Resembles

/-- What is there to the bottom looks the same in a store that has grown. -/
theorem EndsWithin.resembles (hgrows : store.Grows store') (hends : store.EndsWithin steps node) :
    store.Resembles store' steps node node := by
  induction steps generalizing node with
  | zero => exact hends.elim
  | succ steps ih =>
    obtain ⟨value, hvalue, hparts⟩ := hends
    refine ⟨value, value, hvalue, hgrows.value hvalue, ?_⟩
    cases value with
    | number _ => exact .number
    | text _ => exact .text
    | closure _ => exact .closure rfl
    | primitive _ => exact .primitive rfl
    | constructor _ _ =>
      exact .constructor (List.forall₂_same.2 fun part hpart ↦ ih (hparts part hpart))

end Store

namespace View

/-- Chains of cells that look the same have elements that look the same. -/
theorem listItems?_resembles (hresembles : store.Resembles store' (steps + 1) node node')
    {cells cells' : Nat} (hcells : steps < cells) (hcells' : steps < cells') :
    Option.Rel (List.Forall₂ (store.Resembles store' steps)) (listItems? store cells node)
      (listItems? store' cells' node') := by
  induction steps using Nat.strongRecOn generalizing node node' cells cells' with
  | ind steps ih =>
    obtain ⟨value, value', hvalue, hvalue', hform⟩ := hresembles
    obtain ⟨cells, rfl⟩ := Nat.exists_eq_add_one_of_ne_zero (Nat.ne_zero_of_lt hcells)
    obtain ⟨cells', rfl⟩ := Nat.exists_eq_add_one_of_ne_zero (Nat.ne_zero_of_lt hcells')
    unfold listItems?
    rw [hvalue, hvalue']
    cases hform with
    | constructor hargs =>
      dsimp only
      split
      · exact .some .nil
      · split
        · match hargs with
          | .cons (a := head) (b := head') hhead (.cons (a := tail) (b := tail') htail .nil) =>
            cases steps with
            | zero => exact htail.elim
            | succ steps =>
              have hrest := ih steps (Nat.lt_succ_self steps) htail (Nat.lt_of_succ_lt_succ hcells)
                (Nat.lt_of_succ_lt_succ hcells')
              dsimp only
              generalize listItems? store cells tail = items at hrest ⊢
              generalize listItems? store' cells' tail' = items' at hrest ⊢
              cases hrest with
              | none => exact .none
              | some hitems => exact .some (.cons hhead (hitems.imp fun _ _ ↦ Store.Resembles.succ))
          | .nil => exact .none
          | .cons _ .nil => exact .none
          | .cons _ (.cons _ (.cons _ _)) => exact .none
        · exact .none
    | _ => exact .none

/-- The view of what is there to the bottom depends on neither the store nor the depth.  The nodes
around it lie deeper than it does, and so it is none of them. -/
theorem inline_resembles (hresembles : store.Resembles store' steps node node')
    (hsize : steps ≤ store.size) (hsize' : steps ≤ store'.size) {depth depth' : Nat}
    (hdepth : steps ≤ depth) (hdepth' : steps ≤ depth') {enclosing enclosing' : List NodeId}
    (henclosing : ∀ outer ∈ enclosing, ¬store.EndsWithin steps outer)
    (henclosing' : ∀ outer ∈ enclosing', ¬store'.EndsWithin steps outer) :
    inline store' program depth' enclosing' node' = inline store program depth enclosing node := by
  induction steps using Nat.strongRecOn
    generalizing node node' depth depth' enclosing enclosing' with
  | ind steps ih =>
    have hends := hresembles.endsWithin
    have hfree : enclosing.contains node = false := by
      rw [List.contains_eq_mem, decide_eq_false_iff_not]
      exact fun hmem ↦ henclosing node hmem hends
    have hfree' : enclosing'.contains node' = false := by
      rw [List.contains_eq_mem, decide_eq_false_iff_not]
      exact fun hmem ↦ henclosing' node' hmem hresembles.symm.endsWithin
    obtain ⟨least, hlt, hleast, hnot⟩ := hends.exists_least
    have hnot' : ¬store'.EndsWithin least node' := fun hends' ↦
      hnot (hresembles.symm.of_endsWithin hends').symm.endsWithin
    have hlook := hresembles.of_endsWithin hleast
    obtain ⟨depth, rfl⟩ :=
      Nat.exists_eq_add_one_of_ne_zero (Nat.ne_zero_of_lt (hlt.trans_le hdepth))
    obtain ⟨depth', rfl⟩ :=
      Nat.exists_eq_add_one_of_ne_zero (Nat.ne_zero_of_lt (hlt.trans_le hdepth'))
    have hparts {parts parts' : List NodeId}
        (hparts : List.Forall₂ (store.Resembles store' least) parts parts') :
        parts'.map (inline store' program depth' (node' :: enclosing')) =
          parts.map (inline store program depth (node :: enclosing)) := by
      rw [← List.forall₂_eq_eq_eq, List.forall₂_map_left_iff, List.forall₂_map_right_iff]
      refine hparts.flip.imp fun part' part hpart ↦ ?_
      refine ih least hlt hpart (by omega) (by omega) (by omega) (by omega) ?_ ?_
      · refine List.forall_mem_cons.2 ⟨hnot, fun outer houter hends' ↦ ?_⟩
        exact henclosing outer houter (hends'.mono (Nat.le_of_lt hlt))
      · refine List.forall_mem_cons.2 ⟨hnot', fun outer houter hends' ↦ ?_⟩
        exact henclosing' outer houter (hends'.mono (Nat.le_of_lt hlt))
    have hitems := listItems?_resembles hlook (hlt.trans_le hsize) (hlt.trans_le hsize')
    obtain ⟨value, value', hvalue, hvalue', hform⟩ := hlook
    unfold inline
    rw [hvalue, hvalue']
    cases hform with
    | number | text => rfl
    | closure hfunction => simp only [hfunction]
    | primitive hname => simp only [hname]
    | constructor hargs =>
      simp only [hfree, hfree', Bool.false_eq_true, if_false]
      generalize listItems? store store.size node = items at hitems ⊢
      generalize listItems? store' store'.size node' = items' at hitems ⊢
      cases hitems with
      | none => simp only [hparts hargs]
      | some hitems => simp only [hparts hitems]

/-- Nodes that look the same are shown in the same way. -/
theorem of_resembles (hresembles : store.Resembles store' steps node node')
    (hsize : steps ≤ store.size) (hsize' : steps ≤ store'.size) :
    View.of store' program node' = View.of store program node :=
  inline_resembles hresembles hsize hsize' (hsize.trans (Nat.le_succ _))
    (hsize'.trans (Nat.le_succ _)) (List.forall_mem_nil _) (List.forall_mem_nil _)

/-- What has a value to the bottom is shown in the same way as long as the store only grows. -/
theorem of_grow (hgrows : store.Grows store') {allowed : NodeId → Prop}
    (hforced : Forced store allowed node) :
    View.of store' program node = View.of store program node :=
  of_resembles (hforced.endsWithin.resembles hgrows) le_rfl hgrows.size_le

section Same

variable (hvalue : ∀ node, store'.value? node = store.value? node)

include hvalue

theorem listItems?_congr (cells : Nat) (node : NodeId) :
    listItems? store' cells node = listItems? store cells node := by
  induction cells generalizing node with
  | zero => rfl
  | succ cells ih => simp only [listItems?, hvalue, ih]

theorem inline_congr (hsize : store'.size = store.size) (depth : Nat) (enclosing : List NodeId)
    (node : NodeId) :
    inline store' program depth enclosing node = inline store program depth enclosing node := by
  induction depth generalizing enclosing node with
  | zero => rfl
  | succ depth ih =>
    have hinline : inline store' program depth (node :: enclosing) =
        inline store program depth (node :: enclosing) := funext (ih _)
    simp only [inline, hvalue, hsize, listItems?_congr hvalue, hinline]

theorem of_congr (hsize : store'.size = store.size) (node : NodeId) :
    View.of store' program node = View.of store program node := by
  rw [View.of, View.of, hsize, inline_congr hvalue hsize]

end Same

end View

end Whence
