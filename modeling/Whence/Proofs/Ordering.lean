import Whence.Proofs.Merging

/-!
# The order of knowledge

Pieces of knowledge are ordered by how much they say, and merging gives the least piece above both
operands if there is one.  Explanations and most values are discrete, which means that no two of them
have a piece above both.  Something can be added to an absent piece, and to a closure that does not
say from which group it was made; numbers are compared by their representatives.
-/

namespace Whence

variable {α β : Type}

theorem Merge.bind_eq_ok {first : Except Conflict α} {next : α → Except Conflict β} {result : β} :
    (first >>= next) = .ok result ↔ ∃ piece, first = .ok piece ∧ next piece = .ok result := by
  cases first with
  | ok piece => simp [Bind.bind, Except.bind]
  | error conflict => simp [Bind.bind, Except.bind]

theorem Merge.map_eq_ok {first : Except Conflict α} {form : α → β} {result : β} :
    form <$> first = .ok result ↔ ∃ piece, first = .ok piece ∧ form piece = result := by
  cases first with
  | ok piece => simp [Functor.map, Except.map]
  | error conflict => simp [Functor.map, Except.map]

/-- Only equal pieces can be merged. -/
class DiscreteMerge (α : Type) [Merge α] : Prop extends IdempotentMerge α where
  eq_of_merge : ∀ {left right merged : α}, merge left right = .ok merged → left = right

theorem merge_eq_ok [Merge α] [DiscreteMerge α] {left right merged : α} :
    merge left right = .ok merged ↔ left = right ∧ left = merged := by
  constructor
  · intro hmerge
    have heq := DiscreteMerge.eq_of_merge hmerge
    subst heq
    rw [merge_self] at hmerge
    exact ⟨rfl, Except.ok.inj hmerge⟩
  · rintro ⟨rfl, rfl⟩
    exact merge_self left

namespace Merge

theorem identity_eq_of_leaves [DecidableEq β] {identity : α → β} {leaf : α → Leaf}
    {left right merged : α} (hmerge : leaves identity leaf left right = .ok merged) :
    identity left = identity right ∧ left = merged := by
  unfold leaves at hmerge
  split at hmerge
  case isTrue heq => exact ⟨heq, Except.ok.inj hmerge⟩
  case isFalse => cases hmerge

instance : DiscreteMerge String := ⟨fun hmerge ↦ (identity_eq_of_leaves hmerge).1⟩
instance : DiscreteMerge Symbol := ⟨fun hmerge ↦ (identity_eq_of_leaves hmerge).1⟩
instance : DiscreteMerge NodeId := ⟨fun hmerge ↦ (identity_eq_of_leaves hmerge).1⟩
instance : DiscreteMerge EnvId := ⟨fun hmerge ↦ (identity_eq_of_leaves hmerge).1⟩
instance : DiscreteMerge ExprId := ⟨fun hmerge ↦ (identity_eq_of_leaves hmerge).1⟩
instance : DiscreteMerge Scope := ⟨fun hmerge ↦ (identity_eq_of_leaves hmerge).1⟩
instance : DiscreteMerge UnaryOp := ⟨fun hmerge ↦ (identity_eq_of_leaves hmerge).1⟩
instance : DiscreteMerge BinaryOp := ⟨fun hmerge ↦ (identity_eq_of_leaves hmerge).1⟩

theorem eq_of_places [Merge α] [DiscreteMerge α] {lefts rights merged : List α}
    (hlength : lefts.length = rights.length) (hplaces : places lefts rights = .ok merged) :
    lefts = rights := by
  induction lefts generalizing rights merged with
  | nil => exact (List.length_eq_zero_iff.1 hlength.symm).symm
  | cons left lefts ih =>
    cases rights with
    | nil => cases hlength
    | cons right rights =>
      simp only [places, bind_eq_ok] at hplaces
      obtain ⟨first, hfirst, rest, hrest, -⟩ := hplaces
      rw [DiscreteMerge.eq_of_merge hfirst, ih (Nat.succ.inj hlength) hrest]

instance [Merge α] [DiscreteMerge α] : DiscreteMerge (List α) where
  eq_of_merge {lefts rights merged} hmerge := by
    change sequences lefts rights = .ok merged at hmerge
    unfold sequences at hmerge
    split at hmerge
    case isTrue hlength => exact eq_of_places hlength hmerge
    case isFalse => cases hmerge

end Merge

instance : DiscreteMerge Member where
  eq_of_merge {left right merged} hmerge := by
    change Member.merge left right = .ok merged at hmerge
    simp only [Member.merge, Merge.bind_eq_ok, merge_eq_ok] at hmerge
    obtain ⟨-, ⟨hname, -⟩, -, ⟨hclosure, -⟩, -⟩ := hmerge
    cases left
    cases right
    simp_all

instance : DiscreteMerge DefinitionExplanation where
  eq_of_merge {left right merged} hmerge := by
    change DefinitionExplanation.merge left right = .ok merged at hmerge
    cases left <;> cases right <;>
      simp_all [DefinitionExplanation.merge, Merge.bind_eq_ok, Merge.map_eq_ok, merge_eq_ok, and_assoc]

instance : DiscreteMerge Explanation where
  eq_of_merge {left right merged} hmerge := by
    change Explanation.merge left right = .ok merged at hmerge
    cases left <;> cases right <;>
      simp_all [Explanation.merge, Merge.bind_eq_ok, Merge.map_eq_ok, merge_eq_ok, and_assoc]

instance : DiscreteMerge PrimitiveValue where
  eq_of_merge {left right merged} hmerge := by
    change PrimitiveValue.merge left right = .ok merged at hmerge
    cases left <;> cases right <;>
      simp_all [PrimitiveValue.merge, Merge.bind_eq_ok, Merge.map_eq_ok, merge_eq_ok, and_assoc]

/-- Merging gives least upper bounds. -/
class OrderedMerge (α : Type) [Merge α] where
  /-- The second piece says at least what the first one says. -/
  below : α → α → Prop
  below_refl : ∀ piece, below piece piece
  below_trans : ∀ {first second third}, below first second → below second third →
    below first third
  /-- What is above a merged piece is above both operands. -/
  below_iff_of_merge : ∀ {left right merged bound}, merge left right = .ok merged →
    (below merged bound ↔ below left bound ∧ below right bound)
  merge_of_bounded : ∀ {left right bound}, below left bound → below right bound →
    ∃ merged, merge left right = .ok merged

export OrderedMerge (below below_refl below_trans below_iff_of_merge merge_of_bounded)

section Bounds

variable [Merge α] [OrderedMerge α] {left right merged : α}

theorem below_left (hmerge : merge left right = .ok merged) : below left merged :=
  ((below_iff_of_merge hmerge).1 (below_refl merged)).1

theorem below_right (hmerge : merge left right = .ok merged) : below right merged :=
  ((below_iff_of_merge hmerge).1 (below_refl merged)).2

end Bounds

instance (priority := low) [Merge α] [DiscreteMerge α] : OrderedMerge α where
  below := Eq
  below_refl _ := rfl
  below_trans := Eq.trans
  below_iff_of_merge hmerge := by
    obtain ⟨rfl, rfl⟩ := merge_eq_ok.1 hmerge
    exact (and_self_iff).symm
  merge_of_bounded hleft hright := by
    subst hleft hright
    exact ⟨_, merge_self _⟩

instance : OrderedMerge Number where
  below left right := left.canonical = right.canonical
  below_refl _ := rfl
  below_trans := Eq.trans
  below_iff_of_merge hmerge := by
    obtain ⟨heq, rfl⟩ := Merge.identity_eq_of_leaves hmerge
    rw [← heq, and_self_iff]
  merge_of_bounded {left right _} hleft hright :=
    ⟨left, if_pos (hleft.trans hright.symm)⟩

def Merge.optionsBelow [Merge α] [OrderedMerge α] : Option α → Option α → Prop
  | none, _ => True
  | some _, none => False
  | some left, some right => below left right

instance [Merge α] [OrderedMerge α] : OrderedMerge (Option α) where
  below := Merge.optionsBelow
  below_refl piece := by
    cases piece with
    | none => trivial
    | some piece => exact below_refl piece
  below_trans {first second third} hfirst hsecond := by
    cases first <;> cases second <;> cases third <;>
      simp_all only [Merge.optionsBelow]
    exact below_trans hfirst hsecond
  below_iff_of_merge {left right merged bound} hmerge := by
    change Merge.options left right = .ok merged at hmerge
    cases left with
    | none =>
      cases hmerge
      simp [Merge.optionsBelow]
    | some left =>
      cases right with
      | none =>
        cases hmerge
        simp [Merge.optionsBelow]
      | some right =>
        cases hpieces : merge left right with
        | error conflict =>
          simp [Merge.options, hpieces, Except.map] at hmerge
        | ok piece =>
          simp only [Merge.options, hpieces, Except.map, Except.ok.injEq] at hmerge
          subst hmerge
          cases bound with
          | none => simp [Merge.optionsBelow]
          | some bound => exact below_iff_of_merge hpieces
  merge_of_bounded {left right bound} hleft hright := by
    change ∃ merged, Merge.options left right = .ok merged
    cases left with
    | none => exact ⟨right, rfl⟩
    | some left =>
      cases right with
      | none => exact ⟨some left, rfl⟩
      | some right =>
        cases bound with
        | none => cases hleft
        | some bound =>
          obtain ⟨merged, hmerge⟩ := merge_of_bounded hleft hright
          exact ⟨some merged, by simp only [Merge.options, hmerge, Except.map]⟩

theorem Merge.below_some_iff [Merge α] [OrderedMerge α] {piece : α} {bound : Option α} :
    below (some piece) bound ↔ ∃ later, bound = some later ∧ below piece later := by
  cases bound with
  | none => exact ⟨False.elim, nofun⟩
  | some later => exact ⟨fun hbelow ↦ ⟨later, rfl, hbelow⟩, fun ⟨_, hlater, hbelow⟩ ↦
      Option.some.inj hlater ▸ hbelow⟩

/-! ## Values -/

namespace Closure

theorem merge_eq_ok_iff {left right merged : Closure} :
    merge left right = .ok merged ↔ left.env = right.env ∧ left.function = right.function ∧
      ∃ scope, merge left.scope right.scope = .ok scope ∧
        merged = ⟨left.env, left.function, scope⟩ := by
  change Closure.merge left right = .ok merged ↔ _
  simp only [Closure.merge, Merge.bind_eq_ok, merge_eq_ok]
  constructor
  · rintro ⟨_, ⟨henv, rfl⟩, _, ⟨hfunction, rfl⟩, scope, hscope, hmerged⟩
    exact ⟨henv, hfunction, scope, hscope, (Except.ok.inj hmerged).symm⟩
  · rintro ⟨henv, hfunction, scope, hscope, rfl⟩
    exact ⟨_, ⟨henv, rfl⟩, _, ⟨hfunction, rfl⟩, scope, hscope, rfl⟩

instance : OrderedMerge Closure where
  below left right :=
    left.env = right.env ∧ left.function = right.function ∧ below left.scope right.scope
  below_refl closure := ⟨rfl, rfl, below_refl closure.scope⟩
  below_trans hfirst hsecond :=
    ⟨hfirst.1.trans hsecond.1, hfirst.2.1.trans hsecond.2.1, below_trans hfirst.2.2 hsecond.2.2⟩
  below_iff_of_merge hmerge := by
    obtain ⟨henv, hfunction, scope, hscope, rfl⟩ := merge_eq_ok_iff.1 hmerge
    dsimp only
    rw [below_iff_of_merge hscope, ← henv, ← hfunction]
    constructor
    · rintro ⟨henv', hfunction', hleft, hright⟩
      exact ⟨⟨henv', hfunction', hleft⟩, henv', hfunction', hright⟩
    · rintro ⟨⟨henv', hfunction', hleft⟩, -, -, hright⟩
      exact ⟨henv', hfunction', hleft, hright⟩
  merge_of_bounded hleft hright := by
    obtain ⟨scope, hscope⟩ := merge_of_bounded hleft.2.2 hright.2.2
    exact ⟨_, merge_eq_ok_iff.2 ⟨hleft.1.trans hright.1.symm, hleft.2.1.trans hright.2.1.symm, scope,
      hscope, rfl⟩⟩

end Closure

namespace Value

/-- Values of different forms are not comparable. -/
protected inductive Below : Value → Value → Prop
  | number {left right : Number} : below left right → Value.Below (.number left) (.number right)
  | text (value : String) : Value.Below (.text value) (.text value)
  | closure {left right : Closure} : below left right →
    Value.Below (.closure left) (.closure right)
  | primitive (value : PrimitiveValue) : Value.Below (.primitive value) (.primitive value)
  | constructor (tag : Symbol) (args : List NodeId) :
    Value.Below (.constructor tag args) (.constructor tag args)

/-- What can be merged: numbers and closures that can be merged, and equal values. -/
inductive Merges : Value → Value → Value → Prop
  | number {left right merged : Number} : merge left right = .ok merged →
    Merges (.number left) (.number right) (.number merged)
  | text (value : String) : Merges (.text value) (.text value) (.text value)
  | closure {left right merged : Closure} : merge left right = .ok merged →
    Merges (.closure left) (.closure right) (.closure merged)
  | primitive (value : PrimitiveValue) :
    Merges (.primitive value) (.primitive value) (.primitive value)
  | constructor (tag : Symbol) (args : List NodeId) :
    Merges (.constructor tag args) (.constructor tag args) (.constructor tag args)

theorem merges_of_merge {left right merged : Value} (hmerge : merge left right = .ok merged) :
    Merges left right merged := by
  change Value.merge left right = .ok merged at hmerge
  cases left <;> cases right <;>
    simp only [Value.merge, Merge.bind_eq_ok, merge_eq_ok, reduceCtorEq] at hmerge
  case number.number =>
    obtain ⟨value, hvalue, hmerged⟩ := hmerge
    cases hmerged
    exact .number hvalue
  case text.text =>
    obtain ⟨_, ⟨rfl, rfl⟩, hmerged⟩ := hmerge
    cases hmerged
    exact .text _
  case closure.closure =>
    obtain ⟨value, hvalue, hmerged⟩ := hmerge
    cases hmerged
    exact .closure hvalue
  case primitive.primitive =>
    obtain ⟨_, ⟨rfl, rfl⟩, hmerged⟩ := hmerge
    cases hmerged
    exact .primitive _
  case constructor.constructor =>
    obtain ⟨_, ⟨rfl, rfl⟩, _, ⟨rfl, rfl⟩, hmerged⟩ := hmerge
    cases hmerged
    exact .constructor _ _

theorem merge_of_merges {left right merged : Value} (hmerges : Merges left right merged) :
    merge left right = .ok merged := by
  cases hmerges with
  | number hmerge =>
    change Value.merge _ _ = _
    simp only [Value.merge, hmerge]
    rfl
  | text value => exact merge_self _
  | closure hmerge =>
    change Value.merge _ _ = _
    simp only [Value.merge, hmerge]
    rfl
  | primitive value => exact merge_self _
  | constructor tag args => exact merge_self _

instance : OrderedMerge Value where
  below := Value.Below
  below_refl value := by
    cases value with
    | number value => exact .number (below_refl value)
    | text value => exact .text value
    | closure value => exact .closure (below_refl value)
    | primitive value => exact .primitive value
    | constructor tag args => exact .constructor tag args
  below_trans hfirst hsecond := by
    cases hfirst with
    | number hfirst =>
      cases hsecond with
      | number hsecond => exact .number (below_trans hfirst hsecond)
    | closure hfirst =>
      cases hsecond with
      | closure hsecond => exact .closure (below_trans hfirst hsecond)
    | text _ | primitive _ | constructor _ _ => exact hsecond
  below_iff_of_merge hmerge := by
    cases merges_of_merge hmerge with
    | number hnumber =>
      constructor
      · intro hmerged
        cases hmerged with
        | number hbelow =>
          obtain ⟨hleft, hright⟩ := (below_iff_of_merge hnumber).1 hbelow
          exact ⟨.number hleft, .number hright⟩
      · rintro ⟨hleft, hright⟩
        cases hleft with
        | number hleft =>
          cases hright with
          | number hright => exact .number ((below_iff_of_merge hnumber).2 ⟨hleft, hright⟩)
    | closure hclosure =>
      constructor
      · intro hmerged
        cases hmerged with
        | closure hbelow =>
          obtain ⟨hleft, hright⟩ := (below_iff_of_merge hclosure).1 hbelow
          exact ⟨.closure hleft, .closure hright⟩
      · rintro ⟨hleft, hright⟩
        cases hleft with
        | closure hleft =>
          cases hright with
          | closure hright => exact .closure ((below_iff_of_merge hclosure).2 ⟨hleft, hright⟩)
    | text _ | primitive _ | constructor _ _ => exact and_self_iff.symm
  merge_of_bounded hleft hright := by
    cases hleft with
    | number hleft =>
      cases hright with
      | number hright =>
        obtain ⟨merged, hmerge⟩ := merge_of_bounded hleft hright
        exact ⟨_, merge_of_merges (.number hmerge)⟩
    | closure hleft =>
      cases hright with
      | closure hright =>
        obtain ⟨merged, hmerge⟩ := merge_of_bounded hleft hright
        exact ⟨_, merge_of_merges (.closure hmerge)⟩
    | text _ | primitive _ | constructor _ _ =>
      cases hright
      exact ⟨_, merge_self _⟩

end Value

namespace Knowledge

theorem merge_eq_ok_iff {left right merged : Knowledge} :
    merge left right = .ok merged ↔
      merge left.explanation right.explanation = .ok merged.explanation ∧
        merge left.value right.value = .ok merged.value := by
  change Knowledge.merge left right = .ok merged ↔ _
  simp only [Knowledge.merge, Merge.bind_eq_ok]
  constructor
  · rintro ⟨explanation, hexplanation, value, hvalue, hmerged⟩
    cases hmerged
    exact ⟨hexplanation, hvalue⟩
  · rintro ⟨hexplanation, hvalue⟩
    exact ⟨_, hexplanation, _, hvalue, rfl⟩

instance : OrderedMerge Knowledge where
  below left right := below left.explanation right.explanation ∧ below left.value right.value
  below_refl knowledge := ⟨below_refl _, below_refl _⟩
  below_trans hfirst hsecond := ⟨below_trans hfirst.1 hsecond.1, below_trans hfirst.2 hsecond.2⟩
  below_iff_of_merge hmerge := by
    obtain ⟨hexplanation, hvalue⟩ := merge_eq_ok_iff.1 hmerge
    rw [below_iff_of_merge hexplanation, below_iff_of_merge hvalue, and_and_and_comm]
  merge_of_bounded hleft hright := by
    obtain ⟨explanation, hexplanation⟩ := merge_of_bounded hleft.1 hright.1
    obtain ⟨value, hvalue⟩ := merge_of_bounded hleft.2 hright.2
    exact ⟨⟨explanation, value⟩, merge_eq_ok_iff.2 ⟨hexplanation, hvalue⟩⟩

end Knowledge

/-! ## Saying the same -/

/-- Two pieces say the same if each is above the other. -/
theorem Merge.options_antisymm [Merge α] [OrderedMerge α] {view : α → β}
    (hview : ∀ {left right : α}, below left right ∧ below right left ↔ view left = view right)
    {left right : Option α} :
    below left right ∧ below right left ↔ left.map view = right.map view := by
  cases left with
  | none => cases right <;> simp [below, optionsBelow]
  | some left =>
    cases right with
    | none => simp [below, optionsBelow]
    | some right =>
      rw [Option.map_some, Option.map_some, Option.some.injEq]
      exact hview

theorem Merge.discrete_antisymm [Merge α] [DiscreteMerge α] {left right : α} :
    below left right ∧ below right left ↔ id left = id right :=
  ⟨And.left, fun heq ↦ ⟨heq, heq.symm⟩⟩

theorem Closure.antisymm {left right : Closure} :
    below left right ∧ below right left ↔ left = right := by
  constructor
  · rintro ⟨⟨henv, hfunction, hscope⟩, -, -, hscope'⟩
    have hsame : left.scope.map id = right.scope.map id :=
      (Merge.options_antisymm Merge.discrete_antisymm).1 ⟨hscope, hscope'⟩
    rw [Option.map_id] at hsame
    cases left
    cases right
    simp_all
  · rintro rfl
    exact ⟨below_refl left, below_refl left⟩

theorem Value.antisymm {left right : Value} :
    below left right ∧ below right left ↔ left.canonical = right.canonical := by
  constructor
  · rintro ⟨hleft, hright⟩
    cases hleft with
    | number hleft => exact congrArg Value.number hleft
    | closure hleft =>
      cases hright with
      | closure hright => exact congrArg Value.closure (Closure.antisymm.1 ⟨hleft, hright⟩)
    | text _ | primitive _ | constructor _ _ => rfl
  · intro hsame
    cases left <;> cases right <;> simp only [canonical, reduceCtorEq] at hsame
    case number.number => exact ⟨.number (Value.number.inj hsame), .number (Value.number.inj hsame).symm⟩
    all_goals
      cases hsame
      exact ⟨below_refl _, below_refl _⟩

theorem Knowledge.same_iff {left right : Knowledge} :
    left.same right = true ↔ below left right ∧ below right left := by
  have hexplanation : below left.explanation right.explanation ∧
      below right.explanation left.explanation ↔ left.explanation = right.explanation := by
    rw [Merge.options_antisymm Merge.discrete_antisymm, Option.map_id]
    rfl
  have hvalue : below left.value right.value ∧ below right.value left.value ↔
      left.value.map Value.canonical = right.value.map Value.canonical :=
    Merge.options_antisymm Value.antisymm
  rw [Knowledge.same, decide_eq_true_eq]
  change _ ↔ (_ ∧ _) ∧ _ ∧ _
  rw [and_and_and_comm, hexplanation, hvalue, canonical, canonical, Knowledge.mk.injEq]

/-- Knowledge carries what is below it: merging it in succeeds and changes nothing. -/
theorem Knowledge.below_iff_carries {knowledge held : Knowledge} :
    below knowledge held ↔ ∃ merged, merge held knowledge = .ok merged ∧ merged.same held = true := by
  constructor
  · intro hbelow
    obtain ⟨merged, hmerge⟩ := merge_of_bounded (below_refl held) hbelow
    exact ⟨merged, hmerge, same_iff.2
      ⟨(below_iff_of_merge hmerge).2 ⟨below_refl held, hbelow⟩, below_left hmerge⟩⟩
  · rintro ⟨merged, hmerge, hsame⟩
    exact below_trans (below_right hmerge) (same_iff.1 hsame).1

end Whence
