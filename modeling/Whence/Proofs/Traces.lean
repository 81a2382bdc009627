import Mathlib.Logic.Relation
import Whence.Proofs.Cells
import Whence.View.Trace

/-!
# What a trace covers

A trace is made by a depth first traversal along the known premises of explanations, which may lead
back to where they came from.  One set of expanded nodes is carried through the whole traversal.
Each node that can be reached is expanded in one place, and wherever it occurs again the trace
refers back to that place.
-/

namespace Whence

open Relation

namespace Trace

variable {store : Store} {program : Program}

def node : Trace → NodeId
  | .entry node _ _ _ => node

def caption : Trace → String
  | .entry _ label _ _ => label

def children : Trace → List Trace
  | .entry _ _ _ children => children

mutual

/-- A trace and all traces below it, in the order of their lines. -/
def entries : Trace → List Trace
  | .entry node label view children => .entry node label view children :: entriesOfAll children

def entriesOfAll : List Trace → List Trace
  | [] => []
  | trace :: traces => entries trace ++ entriesOfAll traces

end

/-- The nodes of the entries that are no references. -/
def expansions (entries : List Trace) : List NodeId :=
  (entries.filter fun entry ↦ entry.caption ≠ "ref").map node

/-- The nodes that an explanation names and about which something is known, with repetitions. -/
def knownDependencies (store : Store) : Option Explanation → List NodeId
  | none => []
  | some explanation => explanation.dependencies.filter store.isKnown

/-- The explanation of the one node names the other, about which something is known. -/
def IsPremise (store : Store) (node premise : NodeId) : Prop :=
  ∃ explanation, store.explanation? node = some explanation ∧
    premise ∈ explanation.dependencies ∧ store.isKnown premise = true

theorem premises_eq (store : Store) (node : NodeId) :
    premises store node = knownDependencies store (store.explanation? node) := by
  unfold premises
  cases store.explanation? node <;> rfl

theorem mem_knownDependencies {node premise : NodeId} :
    premise ∈ knownDependencies store (store.explanation? node) ↔ IsPremise store node premise := by
  unfold IsPremise
  cases store.explanation? node with
  | none => simp [knownDependencies]
  | some explanation => simp [knownDependencies]

theorem contains_of_isPremise {node premise : NodeId} (hpremise : IsPremise store node premise) :
    store.Contains premise := by
  obtain ⟨-, -, -, hknown⟩ := hpremise
  unfold Store.isKnown at hknown
  cases hknowledge : store.knowledge? premise with
  | none => rw [hknowledge] at hknown; cases hknown
  | some knowledge => exact Store.contains_of_knowledge hknowledge

theorem explanation_of_not_contains {node : NodeId} (hnode : ¬store.Contains node) :
    store.explanation? node = none := by
  rw [Store.explanation?, Option.bind_eq_none_iff]
  exact fun _ hknowledge ↦ absurd (Store.contains_of_knowledge hknowledge) hnode

/-- No expanded node is labelled like a reference. -/
theorem label_ne_ref (explanation? : Option Explanation) : label program explanation? ≠ "ref" := by
  intro hlabel
  have hchars := congrArg String.toList hlabel
  cases explanation? with
  | none => simp [label] at hlabel
  | some explanation =>
    cases explanation <;> simp [label, Explanation.kind, String.toList_append] at hlabel hchars

/-- An entry of two sequences of traces is in the first or in the second. -/
theorem exists_of_append_eq {first second above below : List Trace} {entry : Trace}
    (happend : first ++ second = above ++ entry :: below) :
    (∃ below', first = above ++ entry :: below') ∨
      ∃ above', above = first ++ above' ∧ second = above' ++ entry :: below := by
  obtain ⟨above', habove, hsecond⟩ | ⟨below', hfirst, hbelow⟩ :=
    List.append_eq_append_iff.1 happend
  · exact .inr ⟨above', habove, hsecond⟩
  · cases below' with
    | nil => exact .inr ⟨[], by simpa using hfirst.symm, hbelow.symm⟩
    | cons head below' =>
      obtain ⟨rfl, -⟩ := List.cons.inj hbelow
      exact .inl ⟨below', hfirst⟩

@[simp] theorem entriesOfAll_nil : entriesOfAll [] = [] := rfl

@[simp] theorem entriesOfAll_cons (node : NodeId) (label : String) (view : View)
    (children traces : List Trace) :
    entriesOfAll (.entry node label view children :: traces) =
      .entry node label view children :: (entriesOfAll children ++ entriesOfAll traces) := rfl

@[simp] theorem expansions_append (entries entries' : List Trace) :
    expansions (entries ++ entries') = expansions entries ++ expansions entries' := by
  simp [expansions]

@[simp] theorem expansions_refer (node : NodeId) (view : View) (entries : List Trace) :
    expansions (.entry node "ref" view [] :: entries) = expansions entries := by
  simp [expansions, caption]

@[simp] theorem expansions_expand (node : NodeId) (explanation? : Option Explanation) (view : View)
    (children entries : List Trace) :
    expansions (.entry node (label program explanation?) view children :: entries) =
      node :: expansions entries := by
  simp [expansions, caption, label_ne_ref, Trace.node]

theorem expansions_entriesOfAll_refer (node : NodeId) (view : View) (traces : List Trace) :
    expansions (entriesOfAll (.entry node "ref" view [] :: traces)) =
      expansions (entriesOfAll traces) := by simp

theorem expansions_entriesOfAll_expand (node : NodeId) (explanation? : Option Explanation)
    (view : View) (children traces : List Trace) :
    expansions (entriesOfAll
        (.entry node (label program explanation?) view children :: traces)) =
      node :: (expansions (entriesOfAll children) ++ expansions (entriesOfAll traces)) := by simp

/-! ## Traversals -/

/-- Some nodes are shown one after another.  A node is expanded unless it was expanded before, and
then everything known that its explanation names is shown before the next node.  The depth has no
bound. -/
inductive Traversal (store : Store) (program : Program) :
    Std.HashSet NodeId → List NodeId → List Trace → Std.HashSet NodeId → Prop
  | done {seen : Std.HashSet NodeId} : Traversal store program seen [] [] seen
  | refer {seen after : Std.HashSet NodeId} {node : NodeId} {nodes : List NodeId}
      {traces : List Trace} (hseen : node ∈ seen)
      (hrest : Traversal store program seen nodes traces after) :
      Traversal store program seen (node :: nodes)
        (.entry node "ref" (View.of store program node) [] :: traces) after
  | expand {seen between after : Std.HashSet NodeId} {node : NodeId} {nodes : List NodeId}
      {children traces : List Trace} (hfresh : node ∉ seen)
      (hpremises : Traversal store program (seen.insert node)
        (knownDependencies store (store.explanation? node)) children between)
      (hrest : Traversal store program between nodes traces after) :
      Traversal store program seen (node :: nodes)
        (.entry node (label program (store.explanation? node)) (View.of store program node)
          children :: traces) after

namespace Traversal

variable {seen after : Std.HashSet NodeId} {nodes : List NodeId} {traces : List Trace}

theorem append {between : Std.HashSet NodeId} {nodes' : List NodeId} {traces' : List Trace}
    (hfirst : Traversal store program seen nodes traces between)
    (hsecond : Traversal store program between nodes' traces' after) :
    Traversal store program seen (nodes ++ nodes') (traces ++ traces') after := by
  induction hfirst with
  | done => exact hsecond
  | refer hseen _ ih => exact .refer hseen (ih hsecond)
  | expand hfresh hpremises _ _ ih => exact .expand hfresh hpremises (ih hsecond)

theorem map_node (htraversal : Traversal store program seen nodes traces after) :
    traces.map node = nodes := by
  induction htraversal with
  | done => rfl
  | refer _ _ ih => exact congrArg (List.cons _) ih
  | expand _ _ _ _ ih => exact congrArg (List.cons _) ih

/-- What a traversal makes is determined by where it starts. -/
theorem unique (htraversal : Traversal store program seen nodes traces after)
    {traces' : List Trace} {after' : Std.HashSet NodeId}
    (htraversal' : Traversal store program seen nodes traces' after') :
    traces' = traces ∧ after' = after := by
  induction htraversal generalizing traces' after' with
  | done =>
    cases htraversal'
    exact ⟨rfl, rfl⟩
  | refer hseen _ ih =>
    cases htraversal' with
    | refer _ hrest' =>
      obtain ⟨rfl, rfl⟩ := ih hrest'
      exact ⟨rfl, rfl⟩
    | expand hfresh' => exact absurd hseen hfresh'
  | expand hfresh _ _ ihPremises ihRest =>
    cases htraversal' with
    | refer hseen' => exact absurd hseen' hfresh
    | expand _ hpremises' hrest' =>
      obtain ⟨rfl, rfl⟩ := ihPremises hpremises'
      obtain ⟨rfl, rfl⟩ := ihRest hrest'
      exact ⟨rfl, rfl⟩

/-- The set that comes out of a traversal holds what was in it before and what was expanded. -/
theorem mem_after (htraversal : Traversal store program seen nodes traces after) {node : NodeId} :
    node ∈ after ↔ node ∈ seen ∨ node ∈ expansions (entriesOfAll traces) := by
  induction htraversal with
  | done => simp [entriesOfAll, expansions]
  | refer _ _ ih => simpa using ih
  | expand _ _ _ ihPremises ihRest =>
    rw [ihRest, ihPremises, expansions_entriesOfAll_expand]
    grind

theorem mem_of_mem_nodes (htraversal : Traversal store program seen nodes traces after)
    {node : NodeId} (hnode : node ∈ nodes) : node ∈ after := by
  induction htraversal with
  | done => cases hnode
  | refer hseen hrest ih =>
    obtain rfl | hnode := List.mem_cons.1 hnode
    · exact hrest.mem_after.2 (.inl hseen)
    · exact ih hnode
  | expand _ hpremises hrest _ ih =>
    obtain rfl | hnode := List.mem_cons.1 hnode
    · refine hrest.mem_after.2 (.inl (hpremises.mem_after.2 (.inl ?_)))
      exact Std.HashSet.mem_insert_self
    · exact ih hnode

/-- No node is expanded twice, nor is one that was expanded before. -/
theorem nodup (htraversal : Traversal store program seen nodes traces after) :
    (expansions (entriesOfAll traces)).Nodup ∧
      ∀ node ∈ expansions (entriesOfAll traces), node ∉ seen := by
  induction htraversal with
  | done => exact ⟨List.nodup_nil, List.forall_mem_nil _⟩
  | refer _ _ ih => simpa using ih
  | @expand seen between after node nodes children traces hfresh hpremises hrest ihPremises
      ihRest =>
    have hinside : ∀ other ∈ expansions (entriesOfAll children), other ≠ node ∧ other ∉ seen := by
      intro other hother
      have hnew := ihPremises.2 other hother
      rw [Std.HashSet.mem_insert, not_or] at hnew
      exact ⟨fun heq ↦ hnew.1 (beq_iff_eq.2 heq.symm), hnew.2⟩
    have hbehind : ∀ other ∈ expansions (entriesOfAll traces), other ≠ node ∧
        other ∉ expansions (entriesOfAll children) ∧ other ∉ seen := by
      intro other hother
      have hnew := ihRest.2 other hother
      rw [hpremises.mem_after, not_or, Std.HashSet.mem_insert, not_or] at hnew
      exact ⟨fun heq ↦ hnew.1.1 (beq_iff_eq.2 heq.symm), hnew.2, hnew.1.2⟩
    rw [expansions_entriesOfAll_expand]
    refine ⟨List.nodup_cons.2 ⟨?_, List.nodup_append.2 ⟨ihPremises.1, ihRest.1, ?_⟩⟩, ?_⟩
    · intro hmem
      obtain hmem | hmem := List.mem_append.1 hmem
      · exact (hinside node hmem).1 rfl
      · exact (hbehind node hmem).1 rfl
    · rintro other hother _ hother' rfl
      exact (hbehind other hother').2.1 hother
    · refine List.forall_mem_cons.2 ⟨hfresh, List.forall_mem_append.2 ⟨?_, ?_⟩⟩
      · exact fun other hother ↦ (hinside other hother).2
      · exact fun other hother ↦ (hbehind other hother).2.2

/-- All premises of what a traversal expands are in the set that comes out of it. -/
theorem closed (htraversal : Traversal store program seen nodes traces after)
    {node premise : NodeId} (hnode : node ∈ expansions (entriesOfAll traces))
    (hpremise : IsPremise store node premise) : premise ∈ after := by
  induction htraversal with
  | done => cases hnode
  | refer _ _ ih =>
    rw [expansions_entriesOfAll_refer] at hnode
    exact ih hnode
  | expand _ hpremises hrest ihPremises ihRest =>
    rw [expansions_entriesOfAll_expand] at hnode
    obtain rfl | hnode := List.mem_cons.1 hnode
    · exact hrest.mem_after.2 (.inl (hpremises.mem_of_mem_nodes (mem_knownDependencies.2 hpremise)))
    · obtain hnode | hnode := List.mem_append.1 hnode
      · exact hrest.mem_after.2 (.inl (ihPremises hnode))
      · exact ihRest hnode

theorem reached (htraversal : Traversal store program seen nodes traces after) {node : NodeId}
    (hnode : node ∈ expansions (entriesOfAll traces)) :
    ∃ start ∈ nodes, ReflTransGen (IsPremise store) start node := by
  induction htraversal with
  | done => cases hnode
  | refer _ _ ih =>
    rw [expansions_entriesOfAll_refer] at hnode
    obtain ⟨start, hstart, hpath⟩ := ih hnode
    exact ⟨start, List.mem_cons_of_mem _ hstart, hpath⟩
  | expand _ _ _ ihPremises ihRest =>
    rw [expansions_entriesOfAll_expand] at hnode
    obtain rfl | hnode := List.mem_cons.1 hnode
    · exact ⟨node, List.mem_cons_self, .refl⟩
    · obtain hnode | hnode := List.mem_append.1 hnode
      · obtain ⟨premise, hpremise, hpath⟩ := ihPremises hnode
        exact ⟨_, List.mem_cons_self, .head (mem_knownDependencies.1 hpremise) hpath⟩
      · obtain ⟨start, hstart, hpath⟩ := ihRest hnode
        exact ⟨start, List.mem_cons_of_mem _ hstart, hpath⟩

/-- Below an expanded entry there is one trace for each premise of its node. -/
theorem map_node_children (htraversal : Traversal store program seen nodes traces after)
    {entry : Trace} (hentry : entry ∈ entriesOfAll traces) (hexpanded : entry.caption ≠ "ref") :
    entry.children.map node = knownDependencies store (store.explanation? entry.node) := by
  induction htraversal with
  | done => cases hentry
  | refer _ _ ih =>
    obtain rfl | hentry := List.mem_cons.1 hentry
    · exact absurd rfl hexpanded
    · exact ih hentry
  | expand _ hpremises _ ihPremises ihRest =>
    obtain rfl | hentry := List.mem_cons.1 hentry
    · exact hpremises.map_node
    · obtain hentry | hentry := List.mem_append.1 hentry
      · exact ihPremises hentry
      · exact ihRest hentry

/-- A reference has nothing below it, and its node was expanded before or in a line above. -/
theorem refers_back (htraversal : Traversal store program seen nodes traces after)
    {above below : List Trace} {entry : Trace}
    (hentries : entriesOfAll traces = above ++ entry :: below) (hrefers : entry.caption = "ref") :
    entry.children = [] ∧ (entry.node ∈ seen ∨ entry.node ∈ expansions above) := by
  induction htraversal generalizing above below with
  | done => cases (List.append_eq_nil_iff.1 hentries.symm).2
  | refer hseen _ ih =>
    rw [entriesOfAll_cons, entriesOfAll_nil, List.nil_append] at hentries
    obtain ⟨rfl, hfirst⟩ | ⟨above, rfl, hrest⟩ := List.cons_eq_append_iff.1 hentries
    · cases hfirst
      exact ⟨rfl, .inl hseen⟩
    · rw [expansions_refer]
      exact ih hrest
  | @expand seen between after node nodes children traces _ hpremises _ ihPremises ihRest =>
    rw [entriesOfAll_cons] at hentries
    obtain ⟨rfl, hfirst⟩ | ⟨above, rfl, hrest⟩ := List.cons_eq_append_iff.1 hentries
    · cases hfirst
      exact absurd hrefers (label_ne_ref _)
    have hinside {above : List Trace}
        (hback : entry.node ∈ seen.insert node ∨ entry.node ∈ expansions above) :
        entry.node ∈ seen ∨ entry.node ∈ node :: expansions above := by
      grind
    rw [expansions_expand]
    obtain ⟨_, hchildren⟩ | ⟨above, rfl, hbehind⟩ := exists_of_append_eq hrest
    · obtain ⟨hnil, hback⟩ := ihPremises hchildren
      exact ⟨hnil, hinside hback⟩
    · obtain ⟨hnil, hback⟩ := ihRest hbehind
      rw [hpremises.mem_after, or_assoc, ← List.mem_append, ← expansions_append] at hback
      exact ⟨hnil, hinside hback⟩

end Traversal

/-- Showing each of some nodes in turn is a traversal, if showing one is. -/
theorem traversal_mapM {shown : NodeId → Tracing Trace} {bound : ℕ} {nodes : List NodeId}
    {seen : Std.HashSet NodeId}
    (hshow : ∀ node ∈ nodes, ∀ seen, (store.unvisited seen).card ≤ bound →
      Traversal store program seen [node] [((shown node).run seen).1] ((shown node).run seen).2)
    (hbound : (store.unvisited seen).card ≤ bound) :
    Traversal store program seen nodes ((nodes.mapM shown).run seen).1
      ((nodes.mapM shown).run seen).2 := by
  induction nodes generalizing seen with
  | nil => exact .done
  | cons node nodes ih =>
    have hfirst := hshow node List.mem_cons_self seen hbound
    rw [List.mapM_cons]
    exact hfirst.append (ih (fun other hother ↦ hshow other (List.mem_cons_of_mem _ hother))
      ((Store.card_unvisited_mono fun _ hseen ↦ hfirst.mem_after.2 (.inl hseen)).trans hbound))

theorem build_run (depth : ℕ) (node : NodeId) (seen : Std.HashSet NodeId) :
    (build store program (depth + 1) node).run seen =
      if node ∈ seen then (.entry node "ref" (View.of store program node) [], seen)
      else
        (((knownDependencies store (store.explanation? node)).mapM
          (build store program depth)).run (seen.insert node)).map
          (.entry node (label program (store.explanation? node)) (View.of store program node))
          id := by
  by_cases hseen : node ∈ seen <;> simp [build, hseen, premises_eq] <;> rfl

/-- Showing a node is a traversal, if showing its premises is. -/
theorem build_traversal {depth : ℕ} {seen : Std.HashSet NodeId} {node : NodeId}
    (hpremises : node ∉ seen →
      let shown := (knownDependencies store (store.explanation? node)).mapM
        (build store program depth)
      Traversal store program (seen.insert node) (knownDependencies store (store.explanation? node))
        (shown.run (seen.insert node)).1 (shown.run (seen.insert node)).2) :
    Traversal store program seen [node] [((build store program (depth + 1) node).run seen).1]
      ((build store program (depth + 1) node).run seen).2 := by
  rw [build_run]
  by_cases hseen : node ∈ seen
  · rw [if_pos hseen]
    exact .refer hseen .done
  · rw [if_neg hseen]
    exact .expand hseen (hpremises hseen) .done

/-- The depth is not met where it exceeds the number of nodes that are not expanded yet. -/
theorem build_traversal_of_lt {depth : ℕ} {seen : Std.HashSet NodeId} {node : NodeId}
    (hnode : store.Contains node) (hdepth : (store.unvisited seen).card < depth) :
    Traversal store program seen [node] [((build store program depth node).run seen).1]
      ((build store program depth node).run seen).2 := by
  induction depth generalizing seen node with
  | zero => exact absurd hdepth (Nat.not_lt_zero _)
  | succ depth ih =>
    refine build_traversal fun hfresh ↦
      traversal_mapM (fun premise hpremise seen' hseen' ↦ ?_) le_rfl
    refine ih (contains_of_isPremise (mem_knownDependencies.1 hpremise)) (hseen'.trans_lt ?_)
    exact (Store.card_unvisited_insert hnode hfresh).trans_le (Nat.le_of_lt_succ hdepth)

/-- The trace of a node is made by a traversal that starts there. -/
theorem of_traversal (store : Store) (program : Program) (root : NodeId) :
    ∃ after, Traversal store program ∅ [root] [of store program root] after := by
  refine ⟨_, build_traversal fun _ ↦ ?_⟩
  by_cases hroot : store.Contains root
  · refine traversal_mapM (fun premise hpremise seen hseen ↦ ?_) le_rfl
    have hcontains := contains_of_isPremise (mem_knownDependencies.1 hpremise)
    refine build_traversal_of_lt hcontains (hseen.trans_lt ?_)
    refine (Store.card_unvisited_insert hroot Std.HashSet.not_mem_empty).trans_le ?_
    exact Store.card_unvisited_le _
  -- Nothing is known about such a root.
  · rw [explanation_of_not_contains hroot]
    exact .done

/-! ## Coverage -/

/-- A traversal without bound from the root ends, and the trace is what it makes.  The nodes
expanded in the trace are distinct, and they are those that can be reached along known premises.  A
reference has nothing below it and its node is expanded in a line above.  Below an expanded entry
there is a trace for each known node that its explanation names, in order. -/
theorem of_covers (store : Store) (program : Program) (root : NodeId) :
    (∃ after, ∀ traces after', Traversal store program ∅ [root] traces after' ↔
        traces = [of store program root] ∧ after' = after) ∧
      (expansions (of store program root).entries).Nodup ∧
      (∀ node, node ∈ expansions (of store program root).entries ↔
        ReflTransGen (IsPremise store) root node) ∧
      (∀ above entry below, (of store program root).entries = above ++ entry :: below →
        entry.caption = "ref" → entry.children = [] ∧ entry.node ∈ expansions above) ∧
      ∀ entry ∈ (of store program root).entries, entry.caption ≠ "ref" →
        entry.children.map node = knownDependencies store (store.explanation? entry.node) := by
  obtain ⟨after, htraversal⟩ := of_traversal store program root
  have hentries : entriesOfAll [of store program root] = (of store program root).entries :=
    List.append_nil _
  rw [← hentries]
  refine ⟨⟨after, fun traces after' ↦ ⟨htraversal.unique, ?_⟩⟩, htraversal.nodup.1,
    fun node ↦ ⟨fun hnode ↦ ?_, fun hpath ↦ ?_⟩, fun above entry below hsplit hrefers ↦ ?_,
    fun entry hentry ↦ htraversal.map_node_children hentry⟩
  · rintro ⟨rfl, rfl⟩
    exact htraversal
  · obtain ⟨start, hstart, hpath⟩ := htraversal.reached hnode
    rwa [List.mem_singleton.1 hstart] at hpath
  · refine (htraversal.mem_after.1 ?_).resolve_left Std.HashSet.not_mem_empty
    induction hpath with
    | refl => exact htraversal.mem_of_mem_nodes List.mem_cons_self
    | tail _ hpremise ih =>
      -- Nothing was expanded before, so the set that comes out is closed under premises.
      have hnode := (htraversal.mem_after.1 ih).resolve_left Std.HashSet.not_mem_empty
      exact htraversal.closed hnode hpremise
  · obtain ⟨hnil, hseen | habove⟩ := htraversal.refers_back hsplit hrefers
    · exact absurd hseen Std.HashSet.not_mem_empty
    · exact ⟨hnil, habove⟩

end Trace

end Whence
