import Whence.Proofs.Histories
import Whence.Proofs.LeastBounds

/-!
# Two writes of one revision

What a revision sees after two writes does not depend on their order: it is what it inherits together
with all that it has written, or only the latter if the two contradict each other.  Whether both
writes are accepted may depend on the order.  A write that adds to what is inherited makes all of it
the revision's own, so that a later write may no longer contradict it, whereas a write that
contradicts it at once takes its place.
-/

namespace Whence

namespace Knowledge

open Merge

variable {inherited : Option Knowledge} {knowledge held written written' merged : Knowledge}

theorem same_iff_canonical : knowledge.same held = true ↔ knowledge.canonical = held.canonical :=
  decide_eq_true_iff

/-- What a revision without an entry sees once it has written something: what it inherits together
with what is written, or the latter alone if the two contradict each other. -/
def adopt : Option Knowledge → Knowledge → Knowledge
  | none, written => written
  | some inherited, written =>
    match merge inherited written with
    | .ok merged => if merged.same inherited then inherited else merged
    | .error _ => written

theorem canonical_adopt_of_ok {inherited : Knowledge} (hmerge : merge inherited written = .ok merged) :
    (adopt (some inherited) written).canonical = merged.canonical := by
  simp only [adopt, hmerge]
  split
  case isTrue hsame => exact (same_iff_canonical.1 hsame).symm
  case isFalse => rfl

theorem adopt_of_error {inherited : Knowledge} {conflict : Conflict}
    (hmerge : merge inherited written = .error conflict) : adopt (some inherited) written = written := by
  simp only [adopt, hmerge]

/-- What is seen depends on what the written knowledge says. -/
theorem canonical_adopt_congr (hsame : written.same written' = true) :
    (adopt inherited written).canonical = (adopt inherited written').canonical := by
  cases inherited with
  | none => exact same_iff_canonical.1 hsame
  | some inherited =>
    obtain ⟨hleft, hright⟩ := same_iff.1 hsame
    have hagree : Agree (merge inherited written) (merge inherited written') := by
      refine agree_iff.2 fun bound ↦ ?_
      rw [under_merge, under_merge]
      exact and_congr_right fun _ ↦ ⟨below_trans hright, below_trans hleft⟩
    cases hmerge : merge inherited written with
    | ok merged =>
      cases hmerge' : merge inherited written' with
      | ok merged' =>
        rw [hmerge, hmerge'] at hagree
        rw [canonical_adopt_of_ok hmerge, canonical_adopt_of_ok hmerge']
        exact same_iff_canonical.1 hagree
      | error conflict' =>
        rw [hmerge, hmerge'] at hagree
        exact hagree.elim
    | error conflict =>
      cases hmerge' : merge inherited written' with
      | ok merged' =>
        rw [hmerge, hmerge'] at hagree
        exact hagree.elim
      | error conflict' =>
        rw [adopt_of_error hmerge, adopt_of_error hmerge']
        exact same_iff_canonical.1 hsame

end Knowledge

namespace History

open Merge Knowledge

variable {history final : History} {ancestors : List Revision} {revision : Revision}
  {knowledge first second written held : Knowledge}

theorem visible?_of_lookup (hlookup : history.entries.lookup revision = some held) :
    history.visible? (revision :: ancestors) = some held := by
  rw [visible?, List.findSome?_cons, hlookup]

theorem lookup_enter_self (hnone : history.entries.lookup revision = none) :
    (history.enter revision held).entries.lookup revision = some held := by
  simp [lookup_enter, hnone]

theorem lookup_amend_self {own : Knowledge} (hown : history.entries.lookup revision = some own) :
    (history.amend revision held).entries.lookup revision = some held := by
  simp [lookup_amend, hown]

theorem lookup_echo_self (history : History) (revision : Revision) (knowledge : Knowledge) :
    (history.echo revision knowledge).echoes.lookup revision = some knowledge := by
  rw [echo, lookup_cons, if_pos rfl]

theorem Records.visible? (hnone : history.entries.lookup revision = none)
    (hrecords : Records history (revision :: ancestors) revision written final) :
    ∃ held, final.visible? (revision :: ancestors) = some held ∧
      held.canonical = (adopt (history.visible? (revision :: ancestors)) written).canonical := by
  cases hrecords with
  | first hvisible =>
    exact ⟨written, visible?_of_lookup (lookup_enter_self hnone), by rw [hvisible]; rfl⟩
  | @echo inherited merged hvisible hmerge hsame =>
    refine ⟨inherited, hvisible, ?_⟩
    rw [hvisible, canonical_adopt_of_ok hmerge]
    exact (same_iff_canonical.1 hsame).symm
  | @extend inherited merged hvisible hmerge =>
    refine ⟨merged, visible?_of_lookup (lookup_enter_self hnone), ?_⟩
    rw [hvisible, canonical_adopt_of_ok hmerge]
  | @replace inherited conflict hvisible hmerge =>
    refine ⟨written, visible?_of_lookup (lookup_enter_self hnone), ?_⟩
    rw [hvisible, adopt_of_error hmerge]

theorem commit_of_blank (hblank : knowledge.isBlank = true) (lineage : List Revision) :
    history.commit lineage revision knowledge = .ok history := by
  rw [commit, if_pos hblank]

theorem commit_of_own {own : Knowledge} (hblank : knowledge.isBlank = false)
    (hown : history.entries.lookup revision = some own) (lineage : List Revision) :
    history.commit lineage revision knowledge =
      merge own knowledge >>= fun merged ↦ pure (history.amend revision merged) := by
  rw [commit, if_neg (by simp [hblank]), hown]

theorem commit_of_none (hblank : knowledge.isBlank = false)
    (hnone : history.entries.lookup revision = none) (lineage : List Revision) :
    history.commit lineage revision knowledge = history.written revision knowledge >>=
      fun written ↦ pure (history.record lineage revision written) := by
  rw [commit, if_neg (by simp [hblank]), hnone]

/-- A write after the one that gave the revision its entry is merged into it. -/
theorem commit_enter (hblank : knowledge.isBlank = false)
    (hnone : history.entries.lookup revision = none) (own : Knowledge) (lineage : List Revision) :
    (history.enter revision own).commit lineage revision knowledge =
      merge own knowledge >>= fun merged ↦
        pure ((history.enter revision own).amend revision merged) :=
  commit_of_own hblank (lookup_enter_self hnone) lineage

/-- A write after one that left an echo is recorded together with it. -/
theorem commit_echo (hblank : knowledge.isBlank = false)
    (hnone : history.entries.lookup revision = none) (earlier : Knowledge)
    (lineage : List Revision) :
    (history.echo revision earlier).commit lineage revision knowledge =
      merge earlier knowledge >>= fun written ↦
        pure ((history.echo revision earlier).record lineage revision written) := by
  have hechoed : (history.echo revision earlier).entries.lookup revision = none := hnone
  rw [commit_of_none hblank hechoed, History.written, lookup_echo_self]

/-- A piece is above what a revision without an entry has written if it is above the new write and
the echo of the earlier ones. -/
theorem under_written {bound : Knowledge} :
    Under (history.written revision knowledge) bound ↔
      below knowledge bound ∧
        ∀ earlier, history.echoes.lookup revision = some earlier → below earlier bound := by
  rw [History.written]
  cases history.echoes.lookup revision with
  | none => simp [under_ok]
  | some earlier => simp [under_merge, and_comm]

/-! ## Two writes -/

/-- Two writes of one revision, one after the other. -/
def commitBoth (history : History) (lineage : List Revision) (revision : Revision)
    (first second : Knowledge) : Except Conflict History := do
  let middle ← history.commit lineage revision first
  middle.commit lineage revision second

/-- What a revision without an entry has written after both writes. -/
def writtenBoth (history : History) (revision : Revision) (first second : Knowledge) :
    Except Conflict Knowledge :=
  history.written revision first >>= fun written ↦ merge written second

/-- The revision has no entry, and the write adds something to what is inherited. -/
def Extends (history : History) (lineage : List Revision) (revision : Revision)
    (knowledge : Knowledge) : Prop :=
  knowledge.isBlank = false ∧ history.entries.lookup revision = none ∧
    ∃ inherited written merged, history.visible? lineage = some inherited ∧
      history.written revision knowledge = .ok written ∧ merge inherited written = .ok merged ∧
      merged.same inherited = false

/-- The revision has no entry, and the write stands against what is inherited. -/
def Contradicts (history : History) (lineage : List Revision) (revision : Revision)
    (knowledge : Knowledge) : Prop :=
  knowledge.isBlank = false ∧ history.entries.lookup revision = none ∧
    ∃ inherited written conflict, history.visible? lineage = some inherited ∧
      history.written revision knowledge = .ok written ∧ merge inherited written = .error conflict

theorem under_writtenBoth {bound : Knowledge} :
    Under (history.writtenBoth revision first second) bound ↔
      (below first bound ∧ below second bound) ∧
        ∀ earlier, history.echoes.lookup revision = some earlier → below earlier bound := by
  rw [writtenBoth, under_merge_left, under_written]
  exact and_right_comm

theorem agree_writtenBoth (history : History) (revision : Revision) (first second : Knowledge) :
    Agree (history.writtenBoth revision first second)
      (history.writtenBoth revision second first) := by
  refine agree_iff.2 fun bound ↦ ?_
  rw [under_writtenBoth, under_writtenBoth, and_comm (a := below first bound)]

/-- A revision with an entry merges both writes into it. -/
theorem commitBoth_of_own {own : Knowledge} (hfirst : first.isBlank = false)
    (hsecond : second.isBlank = false) (hown : history.entries.lookup revision = some own)
    (lineage : List Revision) :
    history.commitBoth lineage revision first second =
      (merge own first >>= fun merged ↦ merge merged second >>= fun merged' ↦
        pure ((history.amend revision merged).amend revision merged')) := by
  rw [commitBoth, commit_of_own hfirst hown]
  cases merge own first with
  | error conflict => rfl
  | ok merged => exact commit_of_own hsecond (lookup_amend_self hown) lineage

/-- What two accepted writes of a revision without an entry come to. -/
theorem visible?_commitBoth (hfirst : first.isBlank = false) (hsecond : second.isBlank = false)
    (hnone : history.entries.lookup revision = none)
    (hboth : history.commitBoth (revision :: ancestors) revision first second = .ok final) :
    ∃ written held, history.writtenBoth revision first second = .ok written ∧
      final.visible? (revision :: ancestors) = some held ∧
      held.canonical = (adopt (history.visible? (revision :: ancestors)) written).canonical := by
  obtain ⟨middle, hmiddle, hfinal⟩ := bind_eq_ok.1 hboth
  rw [commit_of_none hfirst hnone] at hmiddle
  obtain ⟨written, hwritten, hrecord⟩ := bind_eq_ok.1 hmiddle
  cases hrecord
  -- The first write has given the revision an entry `own`: the second one is merged into it.
  have hentered : ∀ {own}, (history.enter revision own).commit (revision :: ancestors) revision
      second = .ok final → ∃ merged, merge own second = .ok merged ∧
        final.visible? (revision :: ancestors) = some merged := by
    intro own hcommit
    rw [commit_enter hsecond hnone] at hcommit
    obtain ⟨merged, hmerge, hamend⟩ := bind_eq_ok.1 hcommit
    cases hamend
    exact ⟨merged, hmerge, visible?_of_lookup (lookup_amend_self (lookup_enter_self hnone))⟩
  have hwrittenBoth : ∀ {merged}, merge written second = .ok merged →
      history.writtenBoth revision first second = .ok merged := by
    intro merged hmerge
    rw [writtenBoth, hwritten]
    exact hmerge
  have hrecords := record_spec history (revision :: ancestors) revision written
  generalize history.record (revision :: ancestors) revision written = middle at hrecords hfinal
  cases hrecords with
  | first hvisible =>
    obtain ⟨merged, hmerge, hseen⟩ := hentered hfinal
    exact ⟨merged, merged, hwrittenBoth hmerge, hseen, by rw [hvisible]; rfl⟩
  | @echo inherited merged hvisible hmerge hsame =>
    rw [commit_echo hsecond hnone] at hfinal
    obtain ⟨written', hwritten', hrecord⟩ := bind_eq_ok.1 hfinal
    cases hrecord
    have hechoed : (history.echo revision written).entries.lookup revision = none := hnone
    obtain ⟨held, hheld, hcanonical⟩ := (record_spec (history.echo revision written)
      (revision :: ancestors) revision written').visible? hechoed
    exact ⟨written', held, hwrittenBoth hwritten', hheld, hcanonical⟩
  | @extend inherited merged hvisible hmerge =>
    obtain ⟨held, hheld, hseen⟩ := hentered hfinal
    -- What is held is above what is inherited and above all that is written.
    have hinherited := below_trans (below_left hmerge) (below_left hheld)
    have hbelow := below_trans (below_right hmerge) (below_left hheld)
    obtain ⟨both, hboth⟩ := merge_of_bounded hbelow (below_right hheld)
    have hagree := agree_merge_assoc inherited written second
    rw [hmerge, hboth] at hagree
    obtain ⟨joined, hjoined⟩ := merge_of_bounded hinherited
      ((below_iff_of_merge hboth).2 ⟨hbelow, below_right hheld⟩)
    refine ⟨both, held, hwrittenBoth hboth, hseen, ?_⟩
    rw [hvisible, canonical_adopt_of_ok hjoined]
    have hsame : Agree (merge merged second) (merge inherited both) := hagree
    rw [hheld, hjoined] at hsame
    exact same_iff_canonical.1 hsame
  | @replace inherited conflict hvisible hmerge =>
    obtain ⟨both, hboth, hseen⟩ := hentered hfinal
    refine ⟨both, both, hwrittenBoth hboth, hseen, ?_⟩
    cases hjoined : merge inherited both with
    | error conflict' => rw [hvisible, adopt_of_error hjoined]
    | ok joined =>
      obtain ⟨merged, hmerge'⟩ := merge_of_bounded (below_left hjoined)
        (below_trans (below_left hboth) (below_right hjoined))
      rw [hmerge] at hmerge'
      cases hmerge'

/-- Both writes of a revision without an entry are accepted if they agree with each other and with
what was written before, and if the first one does not make its own what the second one stands
against. -/
theorem commitBoth_of_writtenBoth (hfirst : first.isBlank = false) (hsecond : second.isBlank = false)
    (hnone : history.entries.lookup revision = none)
    (hwritten : history.writtenBoth revision first second = .ok written)
    (hextends : history.Extends (revision :: ancestors) revision first →
      ∃ inherited merged, history.visible? (revision :: ancestors) = some inherited ∧
        merge inherited written = .ok merged) :
    ∃ final, history.commitBoth (revision :: ancestors) revision first second = .ok final := by
  obtain ⟨before, hbefore, hmerge⟩ := bind_eq_ok.1 hwritten
  have hcommit : history.commit (revision :: ancestors) revision first =
      .ok (history.record (revision :: ancestors) revision before) := by
    rw [commit_of_none hfirst hnone, hbefore]
    rfl
  have hentered : ∀ {own}, (∃ merged, merge own second = .ok merged) → ∃ final,
      (history.enter revision own).commit (revision :: ancestors) revision second = .ok final := by
    rintro own ⟨merged, hmerge⟩
    rw [commit_enter hsecond hnone, hmerge]
    exact ⟨_, rfl⟩
  suffices hsuffices : ∃ final, (history.record (revision :: ancestors) revision before).commit
      (revision :: ancestors) revision second = .ok final by
    obtain ⟨final, hfinal⟩ := hsuffices
    exact ⟨final, bind_eq_ok.2 ⟨_, hcommit, hfinal⟩⟩
  unfold record
  split
  case h_1 => exact hentered ⟨written, hmerge⟩
  case h_2 inherited hvisible =>
    split
    case h_2 => exact hentered ⟨written, hmerge⟩
    case h_1 merged hjoin =>
      split
      case isTrue =>
        rw [commit_echo hsecond hnone]
        exact ⟨_, bind_eq_ok.2 ⟨written, hmerge, rfl⟩⟩
      case isFalse hnew =>
        obtain ⟨_, joined, hvisible', hjoined⟩ := hextends ⟨hfirst, hnone, inherited, before, merged,
          hvisible, hbefore, hjoin, by simpa using hnew⟩
        rw [hvisible] at hvisible'
        cases hvisible'
        have hbelow := below_right hjoined
        obtain ⟨hbeforeJoined, hsecondJoined⟩ := (below_iff_of_merge hmerge).1 hbelow
        exact hentered (merge_of_bounded
          ((below_iff_of_merge hjoin).2 ⟨below_left hjoined, hbeforeJoined⟩) hsecondJoined)

/-- A write that adds to what is inherited rules out that a later one stands against it. -/
theorem merge_of_extends (hsecond : second.isBlank = false)
    (hextends : history.Extends (revision :: ancestors) revision first)
    (hboth : history.commitBoth (revision :: ancestors) revision first second = .ok final) :
    ∃ inherited bound, history.visible? (revision :: ancestors) = some inherited ∧
      below inherited bound ∧ Under (history.writtenBoth revision first second) bound := by
  obtain ⟨hfirst, hnone, inherited, written, merged, hvisible, hwritten, hmerge, hnew⟩ := hextends
  obtain ⟨middle, hmiddle, hfinal⟩ := bind_eq_ok.1 hboth
  rw [commit_of_none hfirst hnone, hwritten] at hmiddle
  cases hmiddle
  have hrecord : history.record (revision :: ancestors) revision written =
      history.enter revision merged := by
    simp [record, hvisible, hmerge, hnew]
  rw [hrecord, commit_enter hsecond hnone] at hfinal
  obtain ⟨held, hheld, -⟩ := bind_eq_ok.1 hfinal
  refine ⟨inherited, held, hvisible, below_trans (below_left hmerge) (below_left hheld), ?_⟩
  rw [writtenBoth, under_merge_left, hwritten, under_ok]
  exact ⟨below_trans (below_right hmerge) (below_left hheld), below_right hheld⟩

/-- One of the writes adds to what is inherited, and the other one stands against it. -/
def Disputed (history : History) (lineage : List Revision) (revision : Revision)
    (first second : Knowledge) : Prop :=
  history.Extends lineage revision first ∧ history.Contradicts lineage revision second ∨
    history.Extends lineage revision second ∧ history.Contradicts lineage revision first

/-- A blank write comes to nothing in either place. -/
theorem commitBoth_comm_of_blank (lineage : List Revision)
    (hblank : first.isBlank = true ∨ second.isBlank = true) :
    history.commitBoth lineage revision first second =
      history.commitBoth lineage revision second first := by
  have hleft : ∀ {blank other : Knowledge}, blank.isBlank = true →
      history.commitBoth lineage revision blank other =
        history.commitBoth lineage revision other blank := by
    intro blank other hblank
    have hright : history.commitBoth lineage revision other blank =
        history.commit lineage revision other >>= pure :=
      bind_congr fun middle ↦ commit_of_blank hblank lineage
    rw [hright, bind_pure, commitBoth, commit_of_blank hblank]
    rfl
  obtain hfirst | hsecond := hblank
  · exact hleft hfirst
  · exact (hleft hsecond).symm

/-- What two accepted writes of a revision with an entry come to. -/
theorem commitBoth_of_own_eq_ok {own : Knowledge} (hfirst : first.isBlank = false)
    (hsecond : second.isBlank = false) (hown : history.entries.lookup revision = some own)
    (hboth : history.commitBoth (revision :: ancestors) revision first second = .ok final) :
    ∃ held, (merge own first >>= fun merged ↦ merge merged second) = .ok held ∧
      final.visible? (revision :: ancestors) = some held := by
  rw [commitBoth_of_own hfirst hsecond hown] at hboth
  obtain ⟨merged, hmerge, hrest⟩ := bind_eq_ok.1 hboth
  obtain ⟨held, hheld, hamend⟩ := bind_eq_ok.1 hrest
  cases hamend
  exact ⟨held, bind_eq_ok.2 ⟨merged, hmerge, hheld⟩,
    visible?_of_lookup (lookup_amend_self (lookup_amend_self hown))⟩

theorem agree_own (own first second : Knowledge) :
    Agree (merge own first >>= fun merged ↦ merge merged second)
      (merge own second >>= fun merged ↦ merge merged first) := by
  refine agree_iff.2 fun bound ↦ ?_
  simp only [under_merge_left, under_merge]
  exact and_right_comm

/-- What a revision sees after two accepted writes says the same for either order. -/
theorem canonical_visible?_commitBoth {final' : History}
    (hforth : history.commitBoth (revision :: ancestors) revision first second = .ok final)
    (hback : history.commitBoth (revision :: ancestors) revision second first = .ok final') :
    (final.visible? (revision :: ancestors)).map canonical =
      (final'.visible? (revision :: ancestors)).map canonical := by
  by_cases hblank : first.isBlank = true ∨ second.isBlank = true
  · rw [commitBoth_comm_of_blank _ hblank, hback] at hforth
    cases hforth
    rfl
  · simp only [not_or, Bool.not_eq_true] at hblank
    obtain ⟨hfirst, hsecond⟩ := hblank
    cases hown : history.entries.lookup revision with
    | some own =>
      obtain ⟨held, hheld, hseen⟩ := commitBoth_of_own_eq_ok hfirst hsecond hown hforth
      obtain ⟨held', hheld', hseen'⟩ := commitBoth_of_own_eq_ok hsecond hfirst hown hback
      have hagree := agree_own own first second
      rw [hheld, hheld'] at hagree
      rw [hseen, hseen']
      exact congrArg some (same_iff_canonical.1 hagree)
    | none =>
      obtain ⟨written, held, hwritten, hseen, hheld⟩ := visible?_commitBoth hfirst hsecond hown hforth
      obtain ⟨written', held', hwritten', hseen', hheld'⟩ :=
        visible?_commitBoth hsecond hfirst hown hback
      have hagree := agree_writtenBoth history revision first second
      rw [hwritten, hwritten'] at hagree
      rw [hseen, hseen', Option.map_some, Option.map_some, hheld, hheld',
        canonical_adopt_congr hagree]

/-- Two accepted writes are accepted in the other order as well, unless one of them adds to what is
inherited and the other one stands against it. -/
theorem commitBoth_comm (hundisputed : ¬history.Disputed (revision :: ancestors) revision first second)
    (hboth : history.commitBoth (revision :: ancestors) revision first second = .ok final) :
    ∃ final', history.commitBoth (revision :: ancestors) revision second first = .ok final' := by
  by_cases hblank : first.isBlank = true ∨ second.isBlank = true
  · exact ⟨final, by rw [← commitBoth_comm_of_blank _ hblank, hboth]⟩
  simp only [not_or, Bool.not_eq_true] at hblank
  obtain ⟨hfirst, hsecond⟩ := hblank
  cases hown : history.entries.lookup revision with
  | some own =>
    obtain ⟨held, hheld, -⟩ := commitBoth_of_own_eq_ok hfirst hsecond hown hboth
    have hunder := (agree_iff.1 (agree_own own first second) held).1
      (by rw [hheld, under_ok]; exact below_refl held)
    obtain ⟨held', hheld', -⟩ := hunder
    obtain ⟨merged, hmerge, hmerge'⟩ := bind_eq_ok.1 hheld'
    rw [commitBoth_of_own hsecond hfirst hown]
    exact ⟨_, bind_eq_ok.2 ⟨merged, hmerge, bind_eq_ok.2 ⟨held', hmerge', rfl⟩⟩⟩
  | none =>
    obtain ⟨written, -, hwritten, -, -⟩ := visible?_commitBoth hfirst hsecond hown hboth
    have hagree := agree_iff.1 (agree_writtenBoth history revision first second)
    obtain ⟨written', hwritten', -⟩ := (hagree written).1
      (by rw [hwritten, under_ok]; exact below_refl written)
    -- It is left to find a piece above what is inherited and above all that is written.
    refine commitBoth_of_writtenBoth hsecond hfirst hown hwritten' fun hextends ↦ ?_
    suffices hbounded : ∃ inherited bound, history.visible? (revision :: ancestors) = some inherited ∧
        below inherited bound ∧ Under (history.writtenBoth revision second first) bound by
      obtain ⟨inherited, bound, hvisible, hinherited, hunder⟩ := hbounded
      rw [hwritten', under_ok] at hunder
      obtain ⟨merged, hmerge⟩ := merge_of_bounded hinherited hunder
      exact ⟨inherited, merged, hvisible, hmerge⟩
    have hextends' := hextends
    obtain ⟨-, -, inherited, before', extended, hvisible, hbefore', hextended, -⟩ := hextends'
    obtain ⟨before, hbefore, -⟩ := bind_eq_ok.1 hwritten
    cases hmerge : merge inherited before with
    | error conflict =>
      exact absurd (.inr ⟨hextends, hfirst, hown, inherited, before, conflict, hvisible, hbefore,
        hmerge⟩) hundisputed
    | ok merged =>
      by_cases hsame : merged.same inherited = true
      · -- The first write adds nothing, so all is below what the second one makes of the inherited.
        have hbelow : below before extended := below_trans (below_right hmerge)
          (below_trans (same_iff.1 hsame).1 (below_left hextended))
        refine ⟨inherited, extended, hvisible, below_left hextended, ?_⟩
        rw [writtenBoth, under_merge_left, hbefore', under_ok]
        refine ⟨below_right hextended, ?_⟩
        have hunder : Under (history.written revision first) extended := by
          rw [hbefore, under_ok]
          exact hbelow
        exact (under_written.1 hunder).1
      · obtain ⟨inherited', bound, hvisible', hinherited, hunder⟩ := merge_of_extends hsecond
          ⟨hfirst, hown, inherited, before, merged, hvisible, hbefore, hmerge, by simpa using hsame⟩
          hboth
        exact ⟨inherited', bound, hvisible', hinherited, (hagree bound).1 hunder⟩

/-- Adding to what is inherited first and standing against it afterwards is refused. -/
theorem commitBoth_refused (hextends : history.Extends (revision :: ancestors) revision first)
    (hcontradicts : history.Contradicts (revision :: ancestors) revision second) :
    ¬∃ final, history.commitBoth (revision :: ancestors) revision first second = .ok final := by
  rintro ⟨final, hboth⟩
  obtain ⟨hsecond, -, inherited, written, conflict, hvisible, hwritten, hmerge⟩ := hcontradicts
  obtain ⟨inherited', bound, hvisible', hinherited, hunder⟩ := merge_of_extends hsecond hextends hboth
  rw [hvisible] at hvisible'
  cases hvisible'
  obtain ⟨⟨-, hbelow⟩, hearlier⟩ := under_writtenBoth.1 hunder
  have hwrittenBelow : Under (history.written revision second) bound :=
    under_written.2 ⟨hbelow, hearlier⟩
  rw [hwritten, under_ok] at hwrittenBelow
  obtain ⟨merged, hmerge'⟩ := merge_of_bounded hinherited hwrittenBelow
  rw [hmerge] at hmerge'
  cases hmerge'

end History

end Whence
