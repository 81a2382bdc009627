import Whence.Proofs.Descent
import Whence.Proofs.Finding.Rules
import Whence.Proofs.Sessions

/-!
# Results agree with demands

A machine that works in the first revision stays coherent, whatever is registered, written, taken in,
bound and evaluated, as long as only environments are mentioned that have been handed out.  So each
outcome of an evaluation says what its demand finds at its node in the store that evaluation leaves
behind.  A value that was evaluated completely has no part without a value, and none is missing when
it is shown.
-/

namespace Whence

open Relation

variable {α : Type} {program : Program} {store final : Store} {machine : Machine} {node : NodeId}
  {env : EnvId}

namespace Operation

/-- The operation mentions only environments that have been handed out, and it opens no revision.
Evaluation is not counted here, for it goes with what is remembered. -/
def Fits (store : Store) : Operation → Prop
  | .register address => address.Framed store.envs
  | .write address knowledge => address.Framed store.envs ∧ knowledge.Framed store.envs
  | .input value => value.Framed store.envs
  | .update _ value => value.Framed store.envs
  | .extend env _ binding => store.envs.Contains env ∧ binding.Framed store.envs
  | .primitive _ | .openLibrary _ | .checkout _ => True
  | .spawn | .evaluate .. => False

end Operation

namespace Machine

/-- What may be done with a machine. -/
inductive Act where
  | store (operation : Operation)
  | evaluate (settings : Settings) (env : EnvId) (expr : ExprId) (demand : DemandId)
  /-- What is remembered is dropped. -/
  | forget

namespace Act

def Fits (machine : Machine) : Act → Prop
  | .store operation => operation.Fits machine.store
  | .evaluate _ env _ _ => machine.store.envs.Contains env
  | .forget => True

/-- The machine after an act that has succeeded or failed. -/
def run (program : Program) (machine : Machine) : Act → Machine
  | .store operation => { machine with store := operation.run machine.store }
  | .evaluate settings env expr demand =>
    stateAfter (Evaluation.under program settings env expr demand) machine
  | .forget => { machine with memo := {} }

end Act

/-- The machine is reached from an empty one, in the first revision. -/
inductive InRoot (program : Program) : Machine → Prop
  | initial : InRoot program {}
  | act {machine : Machine} (act : Act) : InRoot program machine → act.Fits machine →
      InRoot program (act.run program machine)

end Machine

theorem Machine.Ensures.bindPrimitives (library : Program) (hcoherent : machine.Coherent program)
    (henv : machine.store.envs.Contains env) (primitives : List Primitive) :
    Ensures program (Evaluation.bindPrimitives library env primitives) machine
      fun _ _ ↦ True := by
  induction primitives generalizing machine env with
  | nil => exact of_pure hcoherent trivial
  | cons primitive rest ih =>
    unfold Evaluation.bindPrimitives
    split
    · exact of_throw hcoherent _
    · refine bind (perform hcoherent (.primitive hcoherent.store primitive)) fun hnode _ ↦ ?_
      refine bind (extend hnode.coherent (hnode.refines.envs.contains henv) _ trivial)
        fun hinner hcontains ↦ ?_
      exact ih hinner.coherent hcontains.1

/-- A machine that remembers nothing is coherent if its store is. -/
theorem Store.Coherent.toMachine (hcoherent : store.Coherent) :
    Machine.Coherent program { store } where
  store := hcoherent
  revision := rfl
  memo hfound := by simp at hfound

/-- As long as no revision is opened, there is none but the first to go to. -/
theorem Store.Coherent.run_checkout (hcoherent : store.Coherent) (revision : Revision) :
    Operation.run store (.checkout revision) = store := by
  rw [Operation.run, stateAfter, checkout_eq]
  cases hcheckout : store.revisions.checkout? revision with
  | none => rfl
  | some revisions =>
    obtain ⟨hrevision, rfl⟩ := Revisions.checkout?_eq_some hcheckout
    have hindex : revision.index < ({} : Revisions).parents.size := hcoherent.revisions ▸ hrevision
    have hroot : revision = .root := by
      obtain ⟨index⟩ := revision
      exact congrArg Revision.mk (Nat.lt_one_iff.1 hindex)
    have hcurrent : store.revisions.current = .root := congrArg Revisions.current hcoherent.revisions
    have hsame : { store.revisions with current := revision, current_lt := hrevision } =
        store.revisions :=
      Revisions.ext rfl (hroot.trans hcurrent.symm)
    exact congrArg (fun revisions ↦ { store with revisions }) hsame

theorem Operation.Fits.follows {operation : Operation} (hfits : operation.Fits store)
    (hcoherent : store.Coherent) : (operation.run store).Follows store := by
  cases operation with
  | register address =>
    exact ⟨hcoherent.register hfits, (Store.register_grows store address).refines⟩
  | write address knowledge => exact (Store.Ensures.write hcoherent hfits.1 hfits.2).follows
  | input value => exact (Store.Ensures.input hcoherent hfits).follows
  | update node value => exact (Store.Ensures.update hcoherent node hfits).follows
  | primitive primitive => exact (Store.Ensures.primitive hcoherent primitive).follows
  | extend env name binding =>
    have hbindings : ∀ entry ∈ [(name, binding)], entry.2.Framed store.envs := by
      simpa using hfits.2
    exact hcoherent.extendAll hfits.1 hbindings
  | checkout revision =>
    rw [hcoherent.run_checkout]
    exact .refl hcoherent
  | openLibrary library =>
    have hmachine : Machine.Coherent library { store } := hcoherent.toMachine
    have hopened := (Machine.Ensures.bindPrimitives library hmachine hcoherent.envs.contains_empty
      Primitive.all).follows
    exact ⟨hopened.coherent.store, hopened.refines⟩
  | spawn => cases hfits
  | evaluate => cases hfits

theorem Machine.InRoot.coherent (hbuilt : program.Built) (hroot : machine.InRoot program) :
    machine.Coherent program := by
  have heverything : program.demand .everything = .everything .done := hbuilt.demand_eq rfl
  induction hroot with
  | initial => exact Store.Coherent.empty.toMachine
  | act act _ hfits ih =>
    cases act with
    | store operation => exact (ih.follows (hfits.follows ih.store)).coherent
    | evaluate settings env expr demand =>
      exact (Evaluation.isFaithful_nested heverything settings settings.maxDepth ih hfits expr
        demand).follows.coherent
    | forget => exact ih.store.toMachine

/-- All parts of a node with a value to the bottom have values. -/
theorem Forced.exists_value (hforced : Forced store (fun _ ↦ True) node) {part : NodeId}
    (hpath : ReflTransGen store.IsPart node part) : ∃ value, store.value? part = some value := by
  induction hpath using ReflTransGen.head_induction_on with
  | refl =>
    cases hforced with
    | intro _ hvalue _ => exact ⟨_, hvalue⟩
  | head hpart _ ih =>
    obtain ⟨value, hvalue, hmem⟩ := hpart
    cases hforced with
    | intro _ hvalue' hparts =>
      rw [hvalue] at hvalue'
      cases hvalue'
      exact ih (hparts _ hmem)

namespace View

mutual

/-- The text of a view, with a text of choice for parts that are not evaluated. -/
def renderWith (gap : String) : View → String
  | .number value => value.plain
  | .text value => Text.Quoted.quote value
  | .closure _ => "<closure>"
  | .primitive name => "<primitive " ++ name ++ ">"
  | .constructor tag [] => tag
  | .constructor tag (arg :: args) =>
    tag ++ "(" ++ ", ".intercalate (renderWith gap arg :: renderAllWith gap args) ++ ")"
  | .list items => "[" ++ ", ".intercalate (renderAllWith gap items) ++ "]"
  | .unevaluated => gap
  | .cycle node => "<cycle " ++ node.text ++ ">"

def renderAllWith (gap : String) : List View → List String
  | [] => []
  | view :: views => renderWith gap view :: renderAllWith gap views

end

mutual

/-- Some part of the view is not evaluated. -/
def hasGap : View → Bool
  | .constructor _ args => anyHasGap args
  | .list items => anyHasGap items
  | .unevaluated => true
  | _ => false

def anyHasGap : List View → Bool
  | [] => false
  | view :: views => hasGap view || anyHasGap views

end

mutual

/-- A view without gaps is shown alike, whatever would be shown for a gap. -/
theorem renderWith_eq {view : View} (hview : view.hasGap = false) (gap : String) :
    view.renderWith gap = view.render := by
  cases view with
  | constructor tag args =>
    cases args with
    | nil => simp only [renderWith, render]
    | cons arg args =>
      simp only [hasGap, anyHasGap, Bool.or_eq_false_iff] at hview
      simp only [renderWith, render, renderWith_eq hview.1 gap, renderAllWith_eq hview.2 gap]
  | list items => simp only [renderWith, render, renderAllWith_eq hview gap]
  | unevaluated => cases hview
  | _ => simp only [renderWith, render]

theorem renderAllWith_eq {views : List View} (hviews : anyHasGap views = false) (gap : String) :
    renderAllWith gap views = renderAll views := by
  cases views with
  | nil => simp only [renderAllWith, renderAll]
  | cons view views =>
    simp only [anyHasGap, Bool.or_eq_false_iff] at hviews
    simp only [renderAllWith, renderAll, renderWith_eq hviews.1 gap, renderAllWith_eq hviews.2 gap]

end

theorem anyHasGap_eq_false {views : List View} (hviews : ∀ view ∈ views, view.hasGap = false) :
    anyHasGap views = false := by
  induction views with
  | nil => rfl
  | cons view views ih =>
    obtain ⟨hview, hviews⟩ := List.forall_mem_cons.1 hviews
    rw [anyHasGap, hview, ih hviews]
    rfl

/-- The elements of a list are parts of it. -/
theorem isPart_of_listItems? {cells : Nat} {items : List NodeId}
    (hitems : listItems? store cells node = some items) {item : NodeId} (hitem : item ∈ items) :
    ReflTransGen store.IsPart node item := by
  induction cells generalizing node items with
  | zero => cases hitems
  | succ cells ih =>
    unfold listItems? at hitems
    split at hitems
    case h_2 => cases hitems
    case h_1 tag args hvalue =>
      split at hitems
      · cases hitems
        cases hitem
      · split at hitems
        case isFalse => cases hitems
        case isTrue =>
          split at hitems
          case h_2 => cases hitems
          case h_1 head tail =>
            obtain ⟨rest, hrest, rfl⟩ := Option.map_eq_some_iff.1 hitems
            obtain rfl | hitem := List.mem_cons.1 hitem
            · exact .single ⟨_, hvalue, List.mem_cons_self⟩
            · exact .head ⟨_, hvalue, by simp [Value.parts]⟩ (ih hrest hitem)

/-- A node whose parts have values is shown without gaps. -/
theorem hasGap_inline (depth : Nat) (enclosing : List NodeId)
    (hparts : ∀ part, ReflTransGen store.IsPart node part → ∃ value, store.value? part = some value) :
    (inline store program depth enclosing node).hasGap = false := by
  induction depth generalizing node enclosing with
  | zero => rfl
  | succ depth ih =>
    obtain ⟨value, hvalue⟩ := hparts node .refl
    have hshown : ∀ parts : List NodeId,
        (∀ part ∈ parts, ReflTransGen store.IsPart node part) →
          anyHasGap (parts.map (inline store program depth (node :: enclosing))) = false := by
      intro parts hmem
      refine anyHasGap_eq_false fun view hview ↦ ?_
      obtain ⟨part, hpart, rfl⟩ := List.mem_map.1 hview
      exact ih _ fun other hother ↦ hparts other ((hmem part hpart).trans hother)
    cases value with
    | constructor tag args =>
      simp only [inline, hvalue]
      split
      · rfl
      · split
        case h_1 items hitems => exact hshown items fun item ↦ isPart_of_listItems? hitems
        case h_2 => exact hshown args fun arg harg ↦ .single ⟨_, hvalue, harg⟩
    | _ =>
      simp only [inline, hvalue]
      rfl

end View

/-! ## Results -/

theorem Evaluation.exists_outcome {settings : Settings} {expr : ExprId} {final : Machine}
    (hrun : evaluate program settings env expr machine = .ok node final) :
    ∃ outcome, under program settings env expr .everything machine = .ok outcome final ∧
      outcome.node = node := by
  obtain ⟨outcome, middle, hunder, hnode⟩ := run_bind_eq_ok hrun
  cases hnode
  exact ⟨outcome, hunder, rfl⟩

/-- In the first revision, whatever has been done before, an evaluation that succeeds comes to the
node of its expression, and its outcome says what its demand finds there.  After a complete
evaluation all parts of the result have values, and the result is shown without gaps. -/
theorem Program.Built.outcome_agrees (hbuilt : program.Built) (hroot : machine.InRoot program)
    (settings : Settings) (henv : machine.store.envs.Contains env) (expr : ExprId)
    (demand : DemandId) :
    (∀ outcome final, Evaluation.under program settings env expr demand machine = .ok outcome final →
      final.store.address outcome.node = .evaluation env expr ∧
        ∀ found, Finds program final.store outcome.node demand found ↔
          found = ⟨final.store.envs.entries outcome.env, outcome.next, outcome.inspected⟩) ∧
    ∀ node final, Evaluation.evaluate program settings env expr machine = .ok node final →
      (∀ part, ReflTransGen final.store.IsPart node part →
        ∃ value, final.store.value? part = some value) ∧
      ∀ gap, (View.of final.store program node).renderWith gap =
        (View.of final.store program node).render := by
  have hcoherent := hroot.coherent hbuilt
  have heverything : program.demand .everything = .everything .done := hbuilt.demand_eq rfl
  have hanswers : ∀ {demand outcome final},
      Evaluation.under program settings env expr demand machine = .ok outcome final →
        final.store.Coherent ∧ Answers program final.store env expr demand outcome := by
    intro demand outcome final hrun
    obtain ⟨hfollows, hanswers⟩ := Stops.ok (Evaluation.isFaithful_nested heverything settings
      settings.maxDepth hcoherent henv expr demand) hrun
    exact ⟨hfollows.coherent.store, hanswers⟩
  constructor
  · intro outcome final hrun
    obtain ⟨hcoherent', hanswers⟩ := hanswers hrun
    refine ⟨(hcoherent'.ids.1 hanswers.lookup).2, fun found ↦ ⟨?_, ?_⟩⟩
    · exact fun hfound ↦ hfound.unique hanswers.agrees.finds
    · rintro rfl
      exact hanswers.agrees.finds
  · intro node final hrun
    obtain ⟨outcome, hunder, rfl⟩ := Evaluation.exists_outcome hrun
    obtain ⟨-, hanswers⟩ := hanswers hunder
    have hforced := hanswers.agrees.finds.forced heverything
    have hparts : ∀ part, ReflTransGen final.store.IsPart outcome.node part →
        ∃ value, final.store.value? part = some value := fun part ↦ hforced.exists_value
    exact ⟨hparts, View.renderWith_eq (View.hasGap_inline _ _ hparts)⟩

/-- A name that the program binds to a text is evaluated in a machine whose library has been opened. -/
theorem Program.outcome_agrees_oneLet : ∃ machine library node final,
    machine.InRoot oneLet ∧ machine.store.envs.Contains library ∧
      Evaluation.evaluate oneLet {} library ⟨2⟩ machine = .ok node final ∧
        ∃ value, final.store.value? node = some value := by
  obtain ⟨machine, library, hfresh⟩ := Session.exists_fresh oneLet_built
  have hsane := hfresh.sane {}
  have hroot : machine.InRoot oneLet := by
    have hopened : stateAfter (Evaluation.openLibrary oneLet) {} = machine := by
      rw [stateAfter, hfresh.opened]
    have hrun : Machine.Act.run oneLet {} (.store (.openLibrary oneLet)) = machine := by
      change Machine.mk (stateAfter (Evaluation.openLibrary oneLet) {}).store {} = machine
      rw [hopened, ← hfresh.memo]
    exact hrun ▸ .act (.store (.openLibrary oneLet)) .initial trivial
  have hlevels : 3 ≤ ({} : Settings).maxDepth := by decide
  obtain ⟨node, final, hrun⟩ :=
    oneLet_succeeds hsane.library hlevels machine rfl hsane.sound hsane.consistent
  have hparts := ((oneLet_built.outcome_agrees hroot {} hsane.library ⟨2⟩ .everything).2 node
    final hrun).1
  exact ⟨machine, library, node, final, hroot, hsane.library, hrun, hparts node .refl⟩

end Whence
