import Mathlib.Logic.Relation
import Whence.Proofs.Cells
import Whence.Proofs.Reachability

/-!
# What a view shows

A view is made by a recursion over the arguments of constructors that keeps the set of nodes around
the one being shown, and cuts what it finds there.  A value that does not contain itself is never
cut, and its view is the value unfolded.  Since the set is restored after each part, parts that are
shared are shown in full each time.
-/

namespace Whence

open Relation

namespace Store

variable {store : Store} {node : NodeId} {items : List NodeId}

/-- The value of the one node is a constructor with the other among its arguments. -/
def IsArgument (store : Store) (whole part : NodeId) : Prop :=
  ∃ tag args, store.value? whole = some (.constructor tag args) ∧ part ∈ args

theorem IsList.transGen (hlist : store.IsList node items) {item : NodeId} (hitem : item ∈ items) :
    TransGen store.IsArgument node item := by
  induction hlist with
  | nil _ => cases hitem
  | cons hvalue _ ih =>
    obtain rfl | hitem := List.mem_cons.1 hitem
    · exact .single ⟨_, _, hvalue, List.mem_cons_self⟩
    · exact .head ⟨_, _, hvalue, List.mem_cons_of_mem _ List.mem_cons_self⟩ (ih hitem)

theorem IsList.exists_value (hlist : store.IsList node items) :
    ∃ tag args, store.value? node = some (.constructor tag args) := by
  cases hlist with
  | nil hvalue | cons hvalue _ => exact ⟨_, _, hvalue⟩

/-- The node can be reached from the root and lies within each of some nodes around it. -/
structure IsWithin (store : Store) (root : NodeId) (enclosing : Std.HashSet NodeId)
    (node : NodeId) : Prop where
  reached : ReflTransGen store.IsArgument root node
  enclosed : ∀ outer ∈ enclosing, TransGen store.IsArgument outer node

namespace IsWithin

variable {root part : NodeId} {enclosing enclosing' : Std.HashSet NodeId}

theorem mono (hwithin : store.IsWithin root enclosing node)
    (henclosing : ∀ outer ∈ enclosing', outer ∈ enclosing) :
    store.IsWithin root enclosing' node :=
  ⟨hwithin.reached, fun outer houter ↦ hwithin.enclosed outer (henclosing outer houter)⟩

theorem enter (hwithin : store.IsWithin root enclosing node)
    (hpart : TransGen store.IsArgument node part) :
    store.IsWithin root (enclosing.insert node) part := by
  refine ⟨hwithin.reached.trans hpart.to_reflTransGen, fun outer houter ↦ ?_⟩
  obtain houter | houter := Std.HashSet.mem_insert.1 houter
  · rwa [← beq_iff_eq.1 houter]
  · exact (hwithin.enclosed outer houter).trans hpart

end IsWithin

/-- No way along arguments from the node goes on forever. -/
def Ends (store : Store) (node : NodeId) : Prop :=
  Acc (fun part whole ↦ store.IsArgument whole part) node

theorem Ends.not_transGen (hends : store.Ends node) : ¬TransGen store.IsArgument node node := by
  induction hends with
  | intro node _ ih =>
    intro hcycle
    obtain ⟨part, hpart, hrest⟩ := TransGen.head'_iff.1 hcycle
    -- A cycle through the node is one through its argument as well.
    exact ih part hpart (TransGen.tail' hrest hpart)

theorem Ends.of_reflTransGen (hends : store.Ends node) {part : NodeId}
    (hpath : ReflTransGen store.IsArgument node part) : store.Ends part := by
  induction hpath with
  | refl => exact hends
  | tail _ hpart ih => exact ih.inv hpart

/-- A list ends if its elements do, provided that an end of a chain has no arguments. -/
theorem IsList.ends
    (hnil : ∀ node args, store.value? node = some (.constructor .nilTag args) → args = [])
    (hlist : store.IsList node items) (hitems : ∀ item ∈ items, store.Ends item) :
    store.Ends node := by
  induction hlist with
  | nil hvalue =>
    refine ⟨_, fun part ⟨tag, args, hvalue', hpart⟩ ↦ ?_⟩
    cases hvalue.symm.trans hvalue'
    rw [hnil _ _ hvalue] at hpart
    cases hpart
  | cons hvalue _ ih =>
    obtain ⟨hhead, hitems⟩ := List.forall_mem_cons.1 hitems
    refine ⟨_, fun part ⟨tag, args, hvalue', hpart⟩ ↦ ?_⟩
    cases hvalue.symm.trans hvalue'
    obtain rfl | hpart := List.mem_cons.1 hpart
    · exact hhead
    · rw [List.mem_singleton.1 hpart]
      exact ih hitems

end Store

namespace View

variable {store : Store} {program : Program}

/-- The view of a value that is no constructor. -/
def plain? : Option Value → Option View
  | none => some .unevaluated
  | some (.number value) => some (.number value)
  | some (.text value) => some (.text value)
  | some (.closure value) => some (.closure value.function)
  | some (.primitive value) => some (.primitive value.name)
  | some (.constructor _ _) => none

theorem plain?_ne_some {value? : Option Value} {tag : Symbol} {args : List NodeId}
    (hvalue : value? = some (.constructor tag args)) (view : View) : plain? value? ≠ some view := by
  intro hplain
  rw [hvalue] at hplain
  cases hplain

theorem exists_constructor {value? : Option Value} (hplain : plain? value? = none) :
    ∃ tag args, value? = some (.constructor tag args) := by
  cases value? with
  | none => cases hplain
  | some value =>
    cases value with
    | constructor tag args => exact ⟨tag, args, rfl⟩
    | _ => cases hplain

mutual

/-- The nodes at which a view is cut. -/
def cuts : View → List NodeId
  | .cycle node => [node]
  | .constructor _ args => cutsOfAll args
  | .list items => cutsOfAll items
  | .number _ | .text _ | .closure _ | .primitive _ | .unevaluated => []

def cutsOfAll : List View → List NodeId
  | [] => []
  | view :: views => cuts view ++ cutsOfAll views

end

theorem cuts_of_plain? {value? : Option Value} {view : View} (hplain : plain? value? = some view) :
    cuts view = [] := by
  cases value? with
  | none => cases hplain; rfl
  | some value => cases value <;> cases hplain <;> rfl

/-- Some nodes are shown one after another.  The set holds the nodes around the one that is shown: a
constructor enters it before its parts are shown and leaves it after them.  The depth has no
bound. -/
inductive Rendering (store : Store) (program : Program) :
    Std.HashSet NodeId → List NodeId → List View → Std.HashSet NodeId → Prop
  | done {enclosing : Std.HashSet NodeId} : Rendering store program enclosing [] [] enclosing
  | plain {enclosing after : Std.HashSet NodeId} {node : NodeId} {nodes : List NodeId}
      {view : View} {views : List View} (hplain : plain? (store.value? node) = some view)
      (hrest : Rendering store program enclosing nodes views after) :
      Rendering store program enclosing (node :: nodes) (view :: views) after
  | cut {enclosing after : Std.HashSet NodeId} {node : NodeId} {nodes args : List NodeId}
      {tag : Symbol} {views : List View}
      (hvalue : store.value? node = some (.constructor tag args)) (henclosing : node ∈ enclosing)
      (hrest : Rendering store program enclosing nodes views after) :
      Rendering store program enclosing (node :: nodes) (.cycle node :: views) after
  | list {enclosing between after : Std.HashSet NodeId} {node : NodeId}
      {nodes args items : List NodeId} {tag : Symbol} {shown views : List View}
      (hvalue : store.value? node = some (.constructor tag args)) (hfree : node ∉ enclosing)
      (hitems : store.Collects ∅ node (some items))
      (hparts : Rendering store program (enclosing.insert node) items shown between)
      (hrest : Rendering store program (between.erase node) nodes views after) :
      Rendering store program enclosing (node :: nodes) (.list shown :: views) after
  | constructor {enclosing between after : Std.HashSet NodeId} {node : NodeId}
      {nodes args : List NodeId} {tag : Symbol} {shown views : List View}
      (hvalue : store.value? node = some (.constructor tag args)) (hfree : node ∉ enclosing)
      (hitems : store.Collects ∅ node none)
      (hparts : Rendering store program (enclosing.insert node) args shown between)
      (hrest : Rendering store program (between.erase node) nodes views after) :
      Rendering store program enclosing (node :: nodes)
        (.constructor (program.name tag) shown :: views) after

namespace Rendering

variable {enclosing after : Std.HashSet NodeId} {nodes : List NodeId} {views : List View}

theorem append {between : Std.HashSet NodeId} {nodes' : List NodeId} {views' : List View}
    (hfirst : Rendering store program enclosing nodes views between)
    (hsecond : Rendering store program between nodes' views' after) :
    Rendering store program enclosing (nodes ++ nodes') (views ++ views') after := by
  induction hfirst with
  | done => exact hsecond
  | plain hplain _ ih => exact .plain hplain (ih hsecond)
  | cut hvalue henclosing _ ih => exact .cut hvalue henclosing (ih hsecond)
  | list hvalue hfree hitems hparts _ _ ih => exact .list hvalue hfree hitems hparts (ih hsecond)
  | constructor hvalue hfree hitems hparts _ _ ih =>
    exact .constructor hvalue hfree hitems hparts (ih hsecond)

/-- What a rendering makes is determined by where it starts. -/
theorem unique (hrendering : Rendering store program enclosing nodes views after)
    {views' : List View} {after' : Std.HashSet NodeId}
    (hrendering' : Rendering store program enclosing nodes views' after') :
    views' = views ∧ after' = after := by
  induction hrendering generalizing views' after' with
  | done =>
    cases hrendering'
    exact ⟨rfl, rfl⟩
  | plain hplain _ ih =>
    cases hrendering' with
    | plain hplain' hrest' =>
      obtain ⟨rfl, rfl⟩ := ih hrest'
      cases hplain.symm.trans hplain'
      exact ⟨rfl, rfl⟩
    | cut hvalue' | list hvalue' | constructor hvalue' =>
      exact absurd hplain (plain?_ne_some hvalue' _)
  | cut hvalue henclosing _ ih =>
    cases hrendering' with
    | plain hplain' => exact absurd hplain' (plain?_ne_some hvalue _)
    | cut _ _ hrest' =>
      obtain ⟨rfl, rfl⟩ := ih hrest'
      exact ⟨rfl, rfl⟩
    | list _ hfree' | constructor _ hfree' => exact absurd henclosing hfree'
  | list hvalue hfree hitems _ _ ihParts ihRest =>
    cases hrendering' with
    | plain hplain' => exact absurd hplain' (plain?_ne_some hvalue _)
    | cut _ henclosing' => exact absurd henclosing' hfree
    | list _ _ hitems' hparts' hrest' =>
      cases hitems.unique hitems'
      obtain ⟨rfl, rfl⟩ := ihParts hparts'
      obtain ⟨rfl, rfl⟩ := ihRest hrest'
      exact ⟨rfl, rfl⟩
    | constructor _ _ hitems' => cases hitems.unique hitems'
  | constructor hvalue hfree hitems _ _ ihParts ihRest =>
    cases hrendering' with
    | plain hplain' => exact absurd hplain' (plain?_ne_some hvalue _)
    | cut _ henclosing' => exact absurd henclosing' hfree
    | list _ _ hitems' => cases hitems.unique hitems'
    | constructor hvalue' _ _ hparts' hrest' =>
      cases hvalue.symm.trans hvalue'
      obtain ⟨rfl, rfl⟩ := ihParts hparts'
      obtain ⟨rfl, rfl⟩ := ihRest hrest'
      exact ⟨rfl, rfl⟩

/-- A set from which a node is taken that was put in before is as it was. -/
theorem mem_erase_iff {between : Std.HashSet NodeId} {node other : NodeId}
    (hfree : node ∉ enclosing)
    (hbetween : ∀ other, other ∈ between ↔ other ∈ enclosing.insert node) :
    other ∈ between.erase node ↔ other ∈ enclosing := by
  grind

/-- The set that comes out of a rendering holds what was in it before. -/
theorem mem_after (hrendering : Rendering store program enclosing nodes views after)
    (other : NodeId) : other ∈ after ↔ other ∈ enclosing := by
  induction hrendering generalizing other with
  | done => rfl
  | plain _ _ ih | cut _ _ _ ih => exact ih other
  | list _ hfree _ _ _ ihParts ihRest | constructor _ hfree _ _ _ ihParts ihRest =>
    rw [ihRest]
    exact mem_erase_iff hfree ihParts

/-- A view is cut only at nodes that can be reached and contain themselves. -/
theorem cyclic_of_mem_cuts {root : NodeId}
    (hrendering : Rendering store program enclosing nodes views after)
    (hwithin : ∀ node ∈ nodes, store.IsWithin root enclosing node) {node : NodeId}
    (hnode : node ∈ cutsOfAll views) :
    ReflTransGen store.IsArgument root node ∧ TransGen store.IsArgument node node := by
  induction hrendering with
  | done => cases hnode
  | plain hplain _ ih =>
    rw [cutsOfAll, cuts_of_plain? hplain, List.nil_append] at hnode
    exact ih (List.forall_mem_cons.1 hwithin).2 hnode
  | cut _ henclosed _ ih =>
    obtain ⟨hfirst, hwithin⟩ := List.forall_mem_cons.1 hwithin
    obtain hnode | hnode := List.mem_append.1 hnode
    · cases List.mem_singleton.1 hnode
      exact ⟨hfirst.reached, hfirst.enclosed _ henclosed⟩
    · exact ih hwithin hnode
  | list hvalue hfree hitems hparts _ ihParts ihRest =>
    obtain ⟨hfirst, hwithin⟩ := List.forall_mem_cons.1 hwithin
    obtain hnode | hnode := List.mem_append.1 hnode
    · refine ihParts (fun item hitem ↦ hfirst.enter ?_) hnode
      exact (hitems.isList rfl).1.transGen hitem
    · refine ihRest (fun other hother ↦ (hwithin other hother).mono fun outer houter ↦ ?_) hnode
      exact (mem_erase_iff hfree hparts.mem_after).1 houter
  | constructor hvalue hfree _ hparts _ ihParts ihRest =>
    obtain ⟨hfirst, hwithin⟩ := List.forall_mem_cons.1 hwithin
    obtain hnode | hnode := List.mem_append.1 hnode
    · exact ihParts (fun arg harg ↦ hfirst.enter (.single ⟨_, _, hvalue, harg⟩)) hnode
    · refine ihRest (fun other hother ↦ (hwithin other hother).mono fun outer houter ↦ ?_) hnode
      exact (mem_erase_iff hfree hparts.mem_after).1 houter

/-- What is shown without cuts does not go on forever. -/
theorem ends (hnil : ∀ node args, store.value? node = some (.constructor .nilTag args) → args = [])
    (hrendering : Rendering store program enclosing nodes views after)
    (hcuts : cutsOfAll views = []) : ∀ node ∈ nodes, store.Ends node := by
  induction hrendering with
  | done => exact List.forall_mem_nil _
  | plain hplain _ ih =>
    exact List.forall_mem_cons.2
      ⟨⟨_, fun part ⟨tag, args, hvalue, _⟩ ↦ absurd hplain (plain?_ne_some hvalue _)⟩,
        ih (List.append_eq_nil_iff.1 hcuts).2⟩
  | cut => cases hcuts
  | list _ _ hitems _ _ ihParts ihRest =>
    obtain ⟨hparts, hrest⟩ := List.append_eq_nil_iff.1 hcuts
    exact List.forall_mem_cons.2
      ⟨(hitems.isList rfl).1.ends hnil (ihParts hparts), ihRest hrest⟩
  | constructor hvalue _ _ _ _ ihParts ihRest =>
    obtain ⟨hparts, hrest⟩ := List.append_eq_nil_iff.1 hcuts
    refine List.forall_mem_cons.2 ⟨⟨_, fun part ⟨tag, args, hvalue', hpart⟩ ↦ ?_⟩, ihRest hrest⟩
    cases hvalue.symm.trans hvalue'
    exact ihParts hparts part hpart

end Rendering

/-! ## Unfoldings -/

/-- The unfoldings of some nodes, one after another: a chain of cells with an end is shown as the
list of its elements, another constructor with its arguments. -/
inductive Unfolds (store : Store) (program : Program) : List NodeId → List View → Prop
  | done : Unfolds store program [] []
  | plain {node : NodeId} {nodes : List NodeId} {view : View} {views : List View}
      (hplain : plain? (store.value? node) = some view)
      (hrest : Unfolds store program nodes views) :
      Unfolds store program (node :: nodes) (view :: views)
  | list {node : NodeId} {nodes items : List NodeId} {shown views : List View}
      (hlist : store.IsList node items) (hitems : Unfolds store program items shown)
      (hrest : Unfolds store program nodes views) :
      Unfolds store program (node :: nodes) (.list shown :: views)
  | constructor {node : NodeId} {nodes args : List NodeId} {tag : Symbol}
      {shown views : List View} (hvalue : store.value? node = some (.constructor tag args))
      (hlist : ∀ items, ¬store.IsList node items) (hargs : Unfolds store program args shown)
      (hrest : Unfolds store program nodes views) :
      Unfolds store program (node :: nodes) (.constructor (program.name tag) shown :: views)

/-- A node has one unfolding at most. -/
theorem Unfolds.unique {nodes : List NodeId} {views views' : List View}
    (hunfolds : Unfolds store program nodes views)
    (hunfolds' : Unfolds store program nodes views') : views' = views := by
  induction hunfolds generalizing views' with
  | done =>
    cases hunfolds'
    rfl
  | plain hplain _ ih =>
    cases hunfolds' with
    | plain hplain' hrest' =>
      cases hplain.symm.trans hplain'
      rw [ih hrest']
    | list hlist' =>
      obtain ⟨tag, args, hvalue'⟩ := hlist'.exists_value
      exact absurd hplain (plain?_ne_some hvalue' _)
    | constructor hvalue' => exact absurd hplain (plain?_ne_some hvalue' _)
  | list hlist _ _ ihItems ihRest =>
    cases hunfolds' with
    | plain hplain' =>
      obtain ⟨tag, args, hvalue⟩ := hlist.exists_value
      exact absurd hplain' (plain?_ne_some hvalue _)
    | list hlist' hitems' hrest' =>
      cases hlist.unique hlist'
      rw [ihItems hitems', ihRest hrest']
    | constructor _ hlist' => exact absurd hlist (hlist' _)
  | constructor hvalue hlist _ _ ihArgs ihRest =>
    cases hunfolds' with
    | plain hplain' => exact absurd hplain' (plain?_ne_some hvalue _)
    | list hlist' => exact absurd hlist' (hlist _)
    | constructor hvalue' _ hargs' hrest' =>
      cases hvalue.symm.trans hvalue'
      rw [ihArgs hargs', ihRest hrest']

/-- What is shown without cuts is the unfolding. -/
theorem Rendering.unfolds {enclosing after : Std.HashSet NodeId} {nodes : List NodeId}
    {views : List View} (hrendering : Rendering store program enclosing nodes views after)
    (hcuts : cutsOfAll views = []) : Unfolds store program nodes views := by
  induction hrendering with
  | done => exact .done
  | plain hplain _ ih => exact .plain hplain (ih (List.append_eq_nil_iff.1 hcuts).2)
  | cut => cases hcuts
  | list _ _ hitems _ _ ihParts ihRest =>
    obtain ⟨hparts, hrest⟩ := List.append_eq_nil_iff.1 hcuts
    exact .list (hitems.isList rfl).1 (ihParts hparts) (ihRest hrest)
  | constructor hvalue _ hitems _ _ ihParts ihRest =>
    obtain ⟨hparts, hrest⟩ := List.append_eq_nil_iff.1 hcuts
    refine .constructor hvalue (fun items hlist ↦ ?_) (ihParts hparts) (ihRest hrest)
    cases hitems.unique hlist.collects_empty

/-- Showing each of some nodes in turn is a rendering, if showing one is. -/
theorem rendering_map {shown : NodeId → View} {enclosing : Std.HashSet NodeId}
    {nodes : List NodeId}
    (hshown : ∀ node ∈ nodes, ∀ enclosing' : Std.HashSet NodeId,
      (∀ other, other ∈ enclosing' ↔ other ∈ enclosing) →
        ∃ after, Rendering store program enclosing' [node] [shown node] after) :
    ∃ after, Rendering store program enclosing nodes (nodes.map shown) after := by
  induction nodes generalizing enclosing with
  | nil => exact ⟨enclosing, .done⟩
  | cons node nodes ih =>
    obtain ⟨between, hfirst⟩ := hshown node List.mem_cons_self enclosing fun _ ↦ Iff.rfl
    have hbetween := hfirst.mem_after
    obtain ⟨after, hrest⟩ := ih fun other hother enclosing' henclosing' ↦
      hshown other (List.mem_cons_of_mem _ hother) enclosing' fun outer ↦
        (henclosing' outer).trans (hbetween outer)
    exact ⟨after, hfirst.append hrest⟩

theorem inline_plain {node : NodeId} {view : View} (hplain : plain? (store.value? node) = some view)
    (depth : ℕ) (outer : List NodeId) :
    inline store program (depth + 1) outer node = view := by
  unfold inline
  cases hvalue : store.value? node with
  | none =>
    rw [hvalue] at hplain
    exact Option.some.inj hplain
  | some value =>
    rw [hvalue] at hplain
    cases value <;> cases hplain <;> rfl

/-- The depth is not met where it exceeds the number of nodes that do not enclose the one shown. -/
theorem inline_rendering {depth : ℕ} {outer : List NodeId} {enclosing : Std.HashSet NodeId}
    {node : NodeId} (houter : ∀ other, other ∈ enclosing ↔ other ∈ outer)
    (hdepth : (store.unvisited enclosing).card < depth) :
    ∃ after, Rendering store program enclosing [node] [inline store program depth outer node]
      after := by
  induction depth generalizing outer enclosing node with
  | zero => exact absurd hdepth (Nat.not_lt_zero _)
  | succ depth ih =>
    cases hplain : plain? (store.value? node) with
    | some view =>
      rw [inline_plain hplain]
      exact ⟨enclosing, .plain hplain .done⟩
    | none =>
      obtain ⟨tag, args, hvalue⟩ := exists_constructor hplain
      simp only [inline, hvalue]
      split
      case isTrue hcontains =>
        exact ⟨enclosing, .cut hvalue ((houter node).2 (List.contains_iff_mem.1 hcontains)) .done⟩
      case isFalse hcontains =>
        have hfree : node ∉ enclosing := fun henclosed ↦
          hcontains (List.contains_iff_mem.2 ((houter node).1 henclosed))
        have hless := Store.card_unvisited_insert (Store.contains_of_value hvalue) hfree
        have hparts (parts : List NodeId) :
            ∃ between, Rendering store program (enclosing.insert node) parts
              (parts.map (inline store program depth (node :: outer))) between := by
          refine rendering_map fun part _ enclosing' henclosing' ↦ ih (fun other ↦ ?_) ?_
          · rw [henclosing', Std.HashSet.mem_insert, houter, List.mem_cons, beq_iff_eq, eq_comm]
          · refine (Store.card_unvisited_mono fun other hother ↦ ?_).trans_lt
              (hless.trans_le (Nat.le_of_lt_succ hdepth))
            exact (henclosing' other).2 hother
        have hitems := collects_listItems? store node
        cases hlist : listItems? store store.size node with
        | some items =>
          obtain ⟨between, hitems'⟩ := hparts items
          exact ⟨_, .list hvalue hfree (hlist ▸ hitems) hitems' .done⟩
        | none =>
          obtain ⟨between, hargs⟩ := hparts args
          exact ⟨_, .constructor hvalue hfree (hlist ▸ hitems) hargs .done⟩

theorem of_rendering (store : Store) (program : Program) (root : NodeId) :
    ∃ after, Rendering store program ∅ [root] [of store program root] after := by
  refine inline_rendering (fun other ↦ ?_) (Nat.lt_succ_of_le (Store.card_unvisited_le _))
  exact iff_of_false Std.HashSet.not_mem_empty List.not_mem_nil

/-! ## Faithfulness -/

/-- A rendering without bound ends, and the view is what it makes.  The view is cut only at values
that contain themselves, and it is cut somewhere if and only if such a value can be reached from the
root.  If there is none, the view is the unfolding of the root. -/
theorem of_faithful (store : Store) (program : Program) (root : NodeId)
    (hnil : ∀ node args, store.value? node = some (.constructor .nilTag args) → args = []) :
    (∃ after, ∀ views after', Rendering store program ∅ [root] views after' ↔
        views = [of store program root] ∧ after' = after) ∧
      (∀ node ∈ (of store program root).cuts, TransGen store.IsArgument node node) ∧
      ((of store program root).cuts ≠ [] ↔
        ∃ node, ReflTransGen store.IsArgument root node ∧ TransGen store.IsArgument node node) ∧
      ((∀ node, ReflTransGen store.IsArgument root node →
          ¬TransGen store.IsArgument node node) →
        ∀ views, Unfolds store program [root] views ↔ views = [of store program root]) := by
  obtain ⟨after, hrendering⟩ := of_rendering store program root
  have hcuts : cutsOfAll [of store program root] = (of store program root).cuts :=
    List.append_nil _
  rw [← hcuts]
  have hcyclic {node : NodeId} (hnode : node ∈ cutsOfAll [of store program root]) :
      ReflTransGen store.IsArgument root node ∧ TransGen store.IsArgument node node := by
    refine hrendering.cyclic_of_mem_cuts (List.forall_mem_singleton.2 ⟨.refl, ?_⟩) hnode
    exact fun outer houter ↦ absurd houter Std.HashSet.not_mem_empty
  refine ⟨⟨after, fun views after' ↦ ⟨hrendering.unique, ?_⟩⟩, fun node hnode ↦ (hcyclic hnode).2,
    ⟨fun hcut ↦ ?_, fun ⟨node, hpath, hcycle⟩ hnone ↦ ?_⟩, fun hacyclic views ↦ ?_⟩
  · rintro ⟨rfl, rfl⟩
    exact hrendering
  · obtain ⟨node, hnode⟩ := List.exists_mem_of_ne_nil _ hcut
    exact ⟨node, hcyclic hnode⟩
  · have hends := hrendering.ends hnil hnone root List.mem_cons_self
    exact (hends.of_reflTransGen hpath).not_transGen hcycle
  · have hnone : cutsOfAll [of store program root] = [] :=
      List.eq_nil_iff_forall_not_mem.2 fun node hnode ↦
        hacyclic node (hcyclic hnode).1 (hcyclic hnode).2
    have hunfolds := hrendering.unfolds hnone
    refine ⟨hunfolds.unique, ?_⟩
    rintro rfl
    exact hunfolds

/-- A cell that is its own head and its own tail is cut at both. -/
theorem of_faithful_cell : ∃ store : Store, store.Reachable ∧
    (∀ node args, store.value? node = some (.constructor .nilTag args) → args = []) ∧
    (of store {} ⟨0⟩).cuts = [⟨0⟩, ⟨0⟩] ∧ TransGen store.IsArgument ⟨0⟩ ⟨0⟩ := by
  let cell : Value := .constructor .consTag [⟨0⟩, ⟨0⟩]
  let store : Store := .oneInput {} ⟨[(.root, .of .given cell)], []⟩
  have hnil : ∀ node args, store.value? node = some (.constructor .nilTag args) → args = [] := by
    rintro ⟨index⟩ args hvalue
    obtain rfl : index = 0 := Nat.lt_one_iff.1 (Store.contains_of_value hvalue)
    have hcell : some cell = some (.constructor .nilTag args) := hvalue
    simp [cell, Symbol.consTag, Symbol.nilTag] at hcell
  exact ⟨store, ⟨[.input cell], Store.run_input_empty cell⟩, hnil, rfl,
    (of_faithful store {} ⟨0⟩ hnil).2.1 ⟨0⟩ List.mem_cons_self⟩

end View

end Whence
