import Mathlib.Logic.Relation
import Whence.Proofs.Sessions
import Whence.Proofs.Slice.Backward

/-!
# Forward and backward slices are dual

Both slices close a set of targets.  A backward slice goes from a target to what it was computed
from; a forward slice goes from a target to the known nodes that were computed from it, which it
finds in an index made beforehand.  A node is lost with a target exactly if it needs the target.
-/

namespace Whence

open Relation

variable {store : Store}

namespace Slice

/-- The target was computed from the source. -/
def Needing (store : Store) (target source : Target) : Prop := source ∈ sources store target

/-- Taking the target away takes the user away. -/
def Losing (store : Store) (target user : Target) : Prop := user ∈ losers store.users target

theorem losing_iff {target user : Target} :
    Losing store target user ↔
      ∃ node, user = .node node ∧ store.isKnown node = true ∧ Needing store user target := by
  simp only [Losing, losers, List.mem_map, Store.mem_users]
  constructor
  · rintro ⟨node, ⟨hknown, htarget⟩, rfl⟩
    exact ⟨node, rfl, hknown, htarget⟩
  · rintro ⟨node, rfl, hknown, htarget⟩
    exact ⟨node, ⟨hknown, htarget⟩, rfl⟩

/-- A node counts as a source only if something is known about it. -/
theorem isKnown_of_needing {target : Target} {node : NodeId}
    (hneeding : Needing store target (.node node)) : store.isKnown node = true := by
  cases target with
  | expr id => cases hneeding
  | node id =>
    simp only [Needing, sources, Store.dependencies, List.mem_append, List.mem_map,
      List.mem_eraseDups, List.mem_filter] at hneeding
    obtain ⟨expr, -, hexpr⟩ | ⟨source, ⟨-, hcounts⟩, hsource⟩ := hneeding
    · cases hexpr
    · cases hsource
      rw [Store.counts, Bool.and_eq_true] at hcounts
      exact hcounts.1

theorem backward_isNeeded (store : Store) (roots : List Target) :
    ∃ marks, backward (.start .backward) store roots = .ok marks ∧
      ∀ target, marks.isNeeded target = true ↔
        ∃ root ∈ roots, ReflTransGen (Needing store) root target := by
  obtain ⟨marks, hbackward, hneeds⟩ := backward_spec store roots
  refine ⟨marks, hbackward, fun target ↦ ⟨?_, ?_⟩⟩
  · have hnext : ∀ {middle}, (∃ root ∈ roots, ReflTransGen (Needing store) root middle) →
        ∀ source ∈ sources store middle,
          ∃ root ∈ roots, ReflTransGen (Needing store) root source := by
      rintro middle ⟨root, hroot, hpath⟩ source hsource
      exact ⟨root, hroot, hpath.tail hsource⟩
    exact hneeds.least (fun root hroot ↦ ⟨root, hroot, .refl⟩) hnext
  · rintro ⟨root, hroot, hpath⟩
    induction hpath with
    | refl => exact hneeds.start root hroot
    | tail _ hsource ih => exact hneeds.sources ih _ hsource

theorem losers_world (target user : Target) (huser : user ∈ losers store.users target) :
    user ∈ store.nodeIds.map Target.node := by
  obtain ⟨node, rfl, hknown, -⟩ := losing_iff.1 huser
  exact List.mem_map_of_mem (Store.mem_nodeIds.2 (Store.contains_of_isKnown hknown))

/-- A forward slice adds to the flags of its pass whatever is lost with them and with the roots. -/
theorem forward_isFlagged (marks : Marks) (hdirection : marks.direction = .forward) (store : Store)
    (roots : List Target) :
    ∃ final, forward marks store roots = .ok final ∧ final.direction = .forward ∧
      ∀ target, final.isFlagged target = true ↔
        ∃ start, (start ∈ roots ∨ marks.isFlagged start = true) ∧
          ReflTransGen (Losing store) start target := by
  have hqueue : ∀ target, target ∈ marks.flagged.toList ++ roots ↔
      target ∈ roots ∨ marks.isFlagged target = true := by
    intro target
    rw [List.mem_append, Std.HashSet.mem_toList, ← Std.HashSet.contains_iff_mem, or_comm]
    rfl
  have hlimit : (store.nodeIds.map Target.node).length ≤ store.size := by
    simp [Store.nodeIds, Store.size]
  obtain ⟨hkeeps, hcloses⟩ := Closure.close_spec losers_world hlimit
    (fun target htarget ↦ contains_flagAll.2 ((hqueue target).1 htarget))
    fun htarget ↦ .inl ((hqueue _).2 (contains_flagAll.1 htarget))
  refine ⟨_, forward_eq hdirection store roots, hdirection, fun target ↦ ⟨fun htarget ↦ ?_, ?_⟩⟩
  · have hstart : ∀ {start}, start ∈ roots ∨ marks.isFlagged start = true → ∃ start',
        (start' ∈ roots ∨ marks.isFlagged start' = true) ∧
          ReflTransGen (Losing store) start' start := fun hstart ↦ ⟨_, hstart, .refl⟩
    refine Closure.spread_least ?_ _ (fun start hmem ↦ hstart ((hqueue start).1 hmem))
      (fun hflag ↦ hstart (contains_flagAll.1 hflag)) htarget
    rintro middle ⟨start, hstart, hpath⟩ user huser
    exact ⟨start, hstart, hpath.tail huser⟩
  · rintro ⟨start, hstart, hpath⟩
    induction hpath with
    | refl => exact hkeeps (contains_flagAll.2 hstart)
    | tail _ huser ih => exact hcloses ih _ huser

/-- A known node is lost with a target exactly if it was computed from it. -/
theorem reaches_iff {node : NodeId} (hknown : store.isKnown node = true) {target : Target} :
    ReflTransGen (Losing store) target (.node node) ↔
      ReflTransGen (Needing store) (.node node) target := by
  constructor
  · intro hpath
    generalize Target.node node = user at hpath
    induction hpath with
    | refl => exact .refl
    | tail _ hlosing ih =>
      obtain ⟨-, -, -, hneeding⟩ := losing_iff.1 hlosing
      exact ih.head hneeding
  · intro hpath
    -- All nodes on the way are known: the first by assumption, the others because they count.
    generalize hstart : Target.node node = start at hpath
    induction hpath using ReflTransGen.head_induction_on generalizing node with
    | refl => exact hstart ▸ .refl
    | @head user source hneeding hrest ih =>
      subst hstart
      have hlosing : Losing store source (.node node) := losing_iff.2 ⟨node, rfl, hknown, hneeding⟩
      cases source with
      | expr id =>
        obtain rfl | ⟨next, hnext, -⟩ := hrest.cases_head
        · exact .single hlosing
        · cases hnext
      | node id => exact (ih (isKnown_of_needing hneeding) rfl).tail hlosing

end Slice

/-- What a name is bound to is reached from the node of the binding if the name is its body. -/
theorem Tidy.reaches_of_letIn {program : Program} (htidy : Tidy program store) {env : EnvId}
    {expr bound body : ExprId} {name : Symbol} (hexpr : program.expr expr = .letIn name bound body)
    (hbody : program.expr body = .var name) {node : NodeId}
    (hlookup : store.lookup? (.evaluation env expr) = some node) {value : Value}
    (hvalue : store.value? node = some value) :
    ∃ target, store.lookup? (.evaluation env bound) = some target ∧ Reaches store node target := by
  obtain ⟨explanation, hknown⟩ := htidy.knowledge_of_value hvalue
  have hrule := htidy.rule hlookup hknown
  rw [hexpr] at hrule
  cases hrule with
  | @letIn _ _ _ target _ inner _ htarget _ hentries hresult =>
    obtain ⟨explanation', hknown'⟩ := htidy.knowledge_of_value hresult.value
    have hnamed := htidy.rule hresult.lookup hknown'
    rw [hbody] at hnamed
    cases hnamed with
    | var hbinding hresolves _ hheld =>
      rw [Environments.get?_eq_lookup, hentries, List.lookup_cons_self] at hbinding
      cases hbinding
      cases hresolves
      have hcounts := Covers.counts_of_evaluation htidy (htidy.address_of_lookup htarget) hheld
      refine ⟨target, htarget, .step ?_ hcounts .refl⟩
      rw [Store.references_of_knowledge hknown]
      exact List.mem_append_right _ List.mem_cons_self

namespace Session

/-- A slice right after a reset starts from no flags. -/
theorem remark_of_reset (session : Session) {direction : Direction}
    {operation : Marks → Store → Except Error Marks} {marks : Marks}
    (hoperation : operation (.start direction) session.store = .ok marks) :
    (do reset direction; ensureDirection direction; remark operation) session =
      .ok () { session with marks } := by
  have hensure : ensureDirection direction { session with marks := .start direction } =
      .ok () { session with marks := .start direction } := by
    rw [ensureDirection, run_get_bind]
    exact congrFun (if_pos rfl) _
  have hreset : reset direction session = .ok () { session with marks := .start direction } := rfl
  simp only [run_bind, hreset, hensure, remark, run_get]
  rw [show store { session with marks := .start direction } = session.store from rfl, hoperation]
  rfl

/-- Forward and backward slices are dual: a known node is unavailable after slicing forward from a
target exactly if the target is needed after slicing backward from the node. -/
theorem slices_dual (session : Session) {node : NodeId} (hknown : session.store.isKnown node = true)
    (target : Target) :
    ∃ lost needed, (do reset .forward; sliceForward [target]) session = .ok () lost ∧
      (do reset .backward; sliceBackward [.node node]) session = .ok () needed ∧
      (lost.marks.isAvailable (.node node) = false ↔ needed.marks.isNeeded target = true) := by
  obtain ⟨lost, hforward, hdirection, hflagged⟩ :=
    Slice.forward_isFlagged (.start .forward) rfl session.store [target]
  obtain ⟨needed, hbackward, hneeded⟩ := Slice.backward_isNeeded session.store [.node node]
  refine ⟨_, _, remark_of_reset session hforward, remark_of_reset session hbackward, ?_⟩
  have hstart : ∀ start, (start ∈ [target] ∨ (Marks.start .forward).isFlagged start = true) ↔
      start = target := by
    simp [Marks.isFlagged, Marks.start]
  calc lost.isAvailable (.node node) = false
    _ ↔ lost.isFlagged (.node node) = true := by simp [Marks.isAvailable, hdirection]
    _ ↔ Relation.ReflTransGen (Slice.Losing session.store) target (.node node) := by
      simp only [hflagged, hstart, exists_eq_left]
    _ ↔ Relation.ReflTransGen (Slice.Needing session.store) (.node node) target :=
      Slice.reaches_iff hknown
    _ ↔ needed.isNeeded target = true := by simp [hneeded]

/-- The node of a definition is lost with the expression that is bound, and needs it. -/
theorem slices_dual_oneLet : ∃ session final node lost needed,
    Session.new .oneLet {} = .ok session ∧
    session.after [.evaluate session.library ⟨2⟩] = final ∧
    (do reset .forward; sliceForward [.expr ⟨0⟩]) final = .ok () lost ∧
    (do reset .backward; sliceBackward [.node node]) final = .ok () needed ∧
    lost.marks.isAvailable (.node node) = false ∧ needed.marks.isNeeded (.expr ⟨0⟩) = true := by
  obtain ⟨session, hnew, hsane, hprogram, hsettings⟩ := exists_new Program.oneLet_built {}
  have hregular : session.program.Regular := hprogram ▸ Program.oneLet_regular
  obtain ⟨node, hnode⟩ :=
    hsane.evaluate_oneLet hprogram hsane.library (by rw [hsettings]; decide)
  obtain ⟨hsane', hcontinues, -, hresult⟩ := hsane.evaluate hregular hsane.library ⟨2⟩
  obtain ⟨_, -, outcome, ⟨hreached, -⟩, rfl⟩ | ⟨error, herror, -⟩ := hresult
  case inr =>
    rw [hnode] at herror
    cases herror
  obtain ⟨final, hfinal⟩ : ∃ final, (session.answer (.evaluate session.library ⟨2⟩)).2 = final :=
    ⟨_, rfl⟩
  rw [hfinal] at hsane' hcontinues hreached
  have htidy := hsane'.sound.toTidy
  obtain ⟨value, hvalue⟩ := hreached.settled.exists_value hregular.isBind_everything
  obtain ⟨name, -, hbody, hexpr⟩ := Program.oneLet_spec
  rw [← hprogram, ← hcontinues.program] at hbody hexpr
  obtain ⟨bound, hbound, hdepends⟩ :=
    htidy.reaches_of_letIn hexpr hbody hreached.lookup hvalue
  have hknown : final.store.isKnown outcome.node = true := htidy.isKnown_iff.2 ⟨value, hvalue⟩
  obtain ⟨lost, needed, hforward, hbackward, hdual⟩ := slices_dual final hknown (.expr ⟨0⟩)
  have hneeded : needed.marks.isNeeded (.expr ⟨0⟩) = true := by
    obtain ⟨marks, hslice, hneeds⟩ := Slice.backward_spec final.store [.node outcome.node]
    have hsliced : (do reset .backward; sliceBackward [.node outcome.node]) final =
        .ok () { final with marks } := remark_of_reset final hslice
    rw [hbackward] at hsliced
    cases hsliced
    exact hneeds.expr (hneeds.of_reaches (hneeds.start _ List.mem_cons_self) hdepends)
      (htidy.address_of_lookup hbound)
  exact ⟨session, final, outcome.node, lost, needed, hnew, hfinal, hforward, hbackward,
    hdual.2 hneeded, hneeded⟩

end Session

end Whence
