import Whence.Proofs.Calls.Failing
import Whence.Proofs.Programs.Growth
import Whence.Proofs.Programs.Unfolding

/-!
# Programs after calls of the builder

Whatever calls have been made, of which some may have failed, names and demands are known by their
places, demands unfold, and nothing refers to an expression that is not there unless a call was given
it from elsewhere.  What there is stays through all further calls.
-/

namespace Whence.Builder

open Program

variable {calls : List Call} {call : Call} {index : Nat} {id : ExprId}

/-- The program after the calls, whether they succeed or fail. -/
def after (calls : List Call) : Program :=
  calls.foldl (fun program call ↦ (outcome call.answer program).2) .initial

/-- One of the calls has returned the expression, other than by handing it back. -/
def IsResult (calls : List Call) (id : ExprId) : Prop :=
  ∃ before call later, calls = before ++ call :: later ∧ ¬call.HandsBack ∧
    (outcome call.answer (after before)).1 = .ok (.expr id)

/-- The call was given the expression, which none of those before it had returned. -/
def IsForeign (before : List Call) (call : Call) (id : ExprId) : Prop :=
  id ∈ call.given ∧ ¬IsResult before id

/-- The one among the calls that made what has the number was given the expression from elsewhere. -/
def HandsIn (calls : List Call) (size : Program → Nat) (index : Nat) (id : ExprId) : Prop :=
  ∃ before call later, calls = before ++ call :: later ∧ size (after before) ≤ index ∧
    index < size (after (before ++ [call])) ∧ IsForeign before call id

theorem after_concat (calls : List Call) (call : Call) :
    after (calls ++ [call]) = (outcome call.answer (after calls)).2 := by
  rw [after, List.foldl_concat]
  rfl

/-- A call adds to the program what refers to what the program has or to what the call is given. -/
theorem call_adds (call : Call) (strange : ExprId → Prop) (hcanonical : (after calls).Canonical)
    (hgiven : ∀ id ∈ call.given, (after calls).Knows strange id) :
    (after (calls ++ [call])).Canonical ∧ Adds strange (after calls) (after (calls ++ [call])) := by
  rw [after_concat]
  exact leads_outcome
    ((Lasting.adds strange).call hcanonical call fun id hid ↦ .body (hgiven id hid))

theorem after_append (later : List Call) (hcanonical : (after calls).Canonical) :
    (after (calls ++ later)).Canonical ∧ (after calls).RetainedBy (after (calls ++ later)) := by
  induction later using List.reverseRecOn with
  | nil =>
    rw [List.append_nil]
    exact ⟨hcanonical, .refl _⟩
  | append_singleton later call ih =>
    have hcall := call_adds call (fun _ ↦ True) ih.1 fun _ _ ↦ .inr trivial
    rw [← List.append_assoc]
    exact ⟨hcall.1, ih.2.trans hcall.2.retained⟩

theorem canonical_after (calls : List Call) : (after calls).Canonical := by
  have hstart : (after []).Canonical := (initial_adds fun _ ↦ False).1
  exact (after_append calls hstart).1

theorem retainedBy_after (calls later : List Call) :
    (after calls).RetainedBy (after (calls ++ later)) :=
  (after_append later (canonical_after calls)).2

/-- What is said of either end of a step is said of its outcome. -/
theorem stops_outcome {α : Type} {step : Builder α} {program : Program}
    {done : α → Program → Prop} {failed : Program → Prop} (hstops : Stops step program done failed) :
    (∀ result, (outcome step program).1 = .ok result → done result (outcome step program).2) ∧
      ∀ error, (outcome step program).1 = .error error → failed (outcome step program).2 := by
  unfold outcome EStateM.run
  cases hrun : step program with
  | ok result final =>
    refine ⟨fun other hsame ↦ ?_, fun error hsame ↦ ?_⟩
    · cases hsame
      exact Stops.ok hstops hrun
    · cases hsame
  | error error final =>
    refine ⟨fun other hsame ↦ ?_, fun _ _ ↦ Stops.error hstops hrun⟩
    cases hsame

theorem settles_after (calls : List Call) (call : Call) :
    (∀ id, ¬call.HandsBack → (outcome call.answer (after calls)).1 = .ok (.expr id) →
      Present id (after (calls ++ [call]))) ∧
    ∀ error, (outcome call.answer (after calls)).1 = .error error →
      Spares (after calls) (after (calls ++ [call])) := by
  rw [after_concat]
  obtain ⟨hdone, hfailed⟩ := stops_outcome (call.settles (after calls))
  exact ⟨fun id hmakes hanswer ↦ hdone _ hanswer hmakes id rfl, hfailed⟩

/-- What a call has returned is there from then on. -/
theorem IsResult.present (hresult : IsResult calls id) :
    Present id (after calls) := by
  obtain ⟨before, call, later, rfl, hmakes, hanswer⟩ := hresult
  have hstays := retainedBy_after (before ++ [call]) later
  rw [List.append_assoc, List.singleton_append] at hstays
  exact Nat.lt_of_lt_of_le ((settles_after before call).1 id hmakes hanswer) hstays.exprs.size_le

/-- A call refers to what there is, or to what it is given from elsewhere. -/
theorem adds_after (calls : List Call) (call : Call) :
    Adds (IsForeign calls call) (after calls) (after (calls ++ [call])) := by
  refine (call_adds call _ (canonical_after calls) fun id hid ↦ ?_).2
  by_cases hresult : IsResult calls id
  · exact .inl hresult.present
  · exact .inr ⟨hid, hresult⟩

/-- What an item of a table refers to is present if the item was there from the start.  Otherwise one
of the calls has added the item. -/
theorem present_or_handsIn {α : Type} {items : Program → Array α} (refers : α → ExprId → Prop)
    (present : Program → Nat → ExprId → Prop) (hempty : ∀ symbols, items { symbols } = #[])
    (hkeep : ∀ {program final : Program} {index id}, program.RetainedBy final →
      present program index id → present final index id)
    (hadded : ∀ {strange program final}, Adds strange program final →
      AddedTo (items program) (items final)
        fun index item ↦ ∀ id, refers item id → present final index id ∨ strange id)
    {item : α} (hitem : (items (after calls))[index]? = some item) (hrefers : refers item id) :
    present (after calls) index id ∨ HandsIn calls (fun program ↦ (items program).size) index id := by
  induction calls using List.reverseRecOn with
  | nil =>
    have hstart := hadded (initial_adds fun _ ↦ False).2
    rw [hempty] at hstart
    exact .inl ((hstart.added (Nat.zero_le _) hitem id hrefers).resolve_right not_false)
  | append_singleton calls call ih =>
    have hcall := hadded (adds_after calls call)
    obtain hold | hnew := Nat.lt_or_ge index (items (after calls)).size
    · -- The item is the one that was there before the last call.
      have hbefore := Array.getElem?_eq_getElem hold
      cases (hcall.stays _ _ hbefore).symm.trans hitem
      refine (ih hbefore).imp (hkeep (retainedBy_after calls [call])) ?_
      rintro ⟨before, earlier, later, rfl, hmade⟩
      exact ⟨before, earlier, later ++ [call], by simp, hmade⟩
    · exact (hcall.added hnew hitem id hrefers).imp_right fun hforeign ↦
        ⟨calls, call, [], rfl, hnew, (Array.getElem?_eq_some_iff.1 hitem).1, hforeign⟩

/-- A part of an expression was made before the expression. -/
theorem part_after {expr : Expr} (hexpr : (after calls).exprs[index]? = some expr)
    (hpart : id ∈ expr.parts) : id.index < index ∨ HandsIn calls (·.exprs.size) index id :=
  present_or_handsIn (fun expr id ↦ id ∈ expr.parts) (fun _ index id ↦ id.index < index)
    (fun _ ↦ rfl) (fun _ hlt ↦ hlt) Adds.exprs hexpr hpart

/-- A body at the end of a demand is there. -/
theorem body_after {layer : Demand} (hlayer : (after calls).demands[index]? = some layer)
    (hbody : .body id ∈ layer.nexts) :
    Present id (after calls) ∨ HandsIn calls (·.demands.size) index id :=
  present_or_handsIn (fun layer id ↦ .body id ∈ layer.nexts) (fun program _ id ↦ Present id program)
    (fun _ ↦ rfl) (fun hretained hlt ↦ Nat.lt_of_lt_of_le hlt hretained.exprs.size_le) Adds.demands
    hlayer hbody

/-- A function of a group is there. -/
theorem function_after {group : Group} (hgroup : (after calls).groups[index]? = some group)
    (hfunction : id ∈ group.entries.map GroupEntry.function) :
    Present id (after calls) ∨ HandsIn calls (·.groups.size) index id :=
  present_or_handsIn (fun group id ↦ id ∈ group.entries.map GroupEntry.function)
    (fun program _ id ↦ Present id program) (fun _ ↦ rfl)
    (fun hretained hlt ↦ Nat.lt_of_lt_of_le hlt hretained.exprs.size_le) Adds.groups hgroup hfunction

/-- After any calls, of which some may have failed, a name has one symbol and a symbol has one name.
A demand refers to earlier demands only, it unfolds to one tree, and demands are equal if and only if
their trees are.  What is referred to is there, and parts of expressions were made before them, unless
the call that made what refers to it was given it from elsewhere; what the calls have returned is not
from elsewhere.  Further calls change neither what there is nor how demands unfold, and those that
fail add no expression and no group. -/
theorem after_canonical (calls : List Call) :
    (∀ name symbol, (after calls).symbol? name = some symbol ↔
      symbol.index < (after calls).symbols.size ∧ (after calls).name symbol = name) ∧
    (∀ demand : DemandId, demand.index < (after calls).demands.size →
      (∀ following, .demand following ∈ ((after calls).demand demand).nexts →
        following.index < demand.index) ∧
      ∃! tree, (after calls).Unfolds [.demand demand] [tree]) ∧
    (∀ left right tree tree', (after calls).Unfolds [.demand left] [tree] →
      (after calls).Unfolds [.demand right] [tree'] → (left = right ↔ tree = tree')) ∧
    (∀ index expr, (after calls).exprs[index]? = some expr → ∀ id ∈ expr.parts,
      id.index < index ∨ HandsIn calls (·.exprs.size) index id) ∧
    (∀ index layer, (after calls).demands[index]? = some layer → ∀ id, .body id ∈ layer.nexts →
      Present id (after calls) ∨ HandsIn calls (·.demands.size) index id) ∧
    (∀ index group, (after calls).groups[index]? = some group →
      ∀ id ∈ group.entries.map GroupEntry.function,
        Present id (after calls) ∨ HandsIn calls (·.groups.size) index id) ∧
    (∀ id, IsResult calls id → Present id (after calls)) ∧
    (∀ later, (after calls).RetainedBy (after (calls ++ later)) ∧
      ∀ nexts trees, (after calls).Unfolds nexts trees →
        (after (calls ++ later)).Unfolds nexts trees) ∧
    ∀ call error, (outcome call.answer (after calls)).1 = .error error →
      Spares (after calls) (after (calls ++ [call])) := by
  have hcanonical := canonical_after calls
  have hinterned := hcanonical.interned
  refine ⟨fun name symbol ↦ hcanonical.symbol?_eq_some_iff, fun demand hdemand ↦ ?_,
    fun left right tree tree' ↦ hinterned.eq_iff_tree_eq, fun index expr hexpr id ↦ part_after hexpr,
    fun index layer hlayer id ↦ body_after hlayer, fun index group hgroup id ↦ function_after hgroup,
    fun id ↦ IsResult.present, fun later ↦ ?_, fun call ↦ (settles_after calls call).2⟩
  · refine ⟨fun following hfollowing ↦ hinterned.earlier ?_ hfollowing,
      hinterned.existsUnique_unfolds hdemand⟩
    rw [Program.demand, Array.getElem?_eq_getElem hdemand, Option.getD_some]
  · have hretained := retainedBy_after calls later
    exact ⟨hretained, fun nexts trees hunfolds ↦ hunfolds.mono hretained.demands⟩

end Whence.Builder
