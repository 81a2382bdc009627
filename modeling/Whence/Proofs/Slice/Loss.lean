import Whence.Proofs.Slice.Duality

/-!
# What a forward slice takes away

A forward slice starts from all that is flagged already, so it closes the flags whatever they are:
afterwards they are the least set with the earlier flags and the roots that holds every known node
with a dependency in it.  A set that is least in this sense does not depend on the way to it, hence
slices of one pass may be repeated, joined and exchanged.
-/

namespace Whence.Slice

variable {store : Store} {roots more : List Target} {marks marks' final final' : Marks}

/-- The flags of `final` are the least set with those of `marks` and the roots that holds every known
node with a dependency in it. -/
structure Loses (store : Store) (roots : List Target) (marks final : Marks) : Prop where
  kept : ∀ {target}, marks.isFlagged target = true → final.isFlagged target = true
  start : ∀ root ∈ roots, final.isFlagged root = true
  users : ∀ {node source}, store.isKnown node = true → source ∈ store.dependencies node →
    final.isFlagged source = true → final.isFlagged (.node node) = true
  least : ∀ {member : Target → Prop}, (∀ {target}, marks.isFlagged target = true → member target) →
    (∀ root ∈ roots, member root) →
    (∀ {node source}, store.isKnown node = true → source ∈ store.dependencies node →
      member source → member (.node node)) →
    ∀ {target}, final.isFlagged target = true → member target

/-- Nothing is lost that is not lost from flags and roots which lead to those at hand. -/
theorem Loses.subset (hloses : Loses store roots marks final)
    (hcloses : Loses store more marks' final')
    (hkept : ∀ {target}, marks.isFlagged target = true → final'.isFlagged target = true)
    (hroots : ∀ root ∈ roots, final'.isFlagged root = true) {target : Target}
    (htarget : final.isFlagged target = true) : final'.isFlagged target = true :=
  hloses.least hkept hroots (fun hknown hsource ↦ hcloses.users hknown hsource) htarget

/-- The two passes have flagged the same targets. -/
def Alike (marks marks' : Marks) : Prop := ∀ target, marks.isFlagged target = marks'.isFlagged target

theorem alike_of_subset
    (hleft : ∀ {target}, marks.isFlagged target = true → marks'.isFlagged target = true)
    (hright : ∀ {target}, marks'.isFlagged target = true → marks.isFlagged target = true) :
    Alike marks marks' :=
  fun _ ↦ Bool.eq_iff_iff.2 ⟨hleft, hright⟩

/-- A forward slice succeeds in a forward pass and closes the flags. -/
theorem forward_loses (hdirection : marks.direction = .forward) (store : Store)
    (roots : List Target) :
    ∃ final, forward marks store roots = .ok final ∧ final.direction = .forward ∧
      Loses store roots marks final := by
  obtain ⟨final, hforward, hfinal, hflagged⟩ := forward_isFlagged marks hdirection store roots
  refine ⟨final, hforward, hfinal, ?_⟩
  constructor
  case kept => exact fun {target} htarget ↦ (hflagged target).2 ⟨target, .inr htarget, .refl⟩
  case start => exact fun root hroot ↦ (hflagged root).2 ⟨root, .inl hroot, .refl⟩
  case users =>
    intro node source hknown hsource hlost
    obtain ⟨start, hstart, hpath⟩ := (hflagged source).1 hlost
    have hlosing : Losing store source (.node node) := losing_iff.2 ⟨node, rfl, hknown, hsource⟩
    exact (hflagged _).2 ⟨start, hstart, hpath.tail hlosing⟩
  case least =>
    intro member hkept hroots husers target htarget
    obtain ⟨start, hstart, hpath⟩ := (hflagged target).1 htarget
    induction hpath with
    | refl => exact hstart.elim (hroots start) hkept
    | tail hpath hlosing ih =>
      obtain ⟨node, rfl, hknown, hsource⟩ := losing_iff.1 hlosing
      exact husers hknown hsource (ih ((hflagged _).2 ⟨start, hstart, hpath⟩))

/-- Slicing on in the same pass comes to what one slice from all roots comes to. -/
theorem Loses.alike_append (hfirst : Loses store roots marks final)
    (hsecond : Loses store more final final') {both : Marks} {all : List Target}
    (hall : ∀ target, target ∈ all ↔ target ∈ roots ∨ target ∈ more)
    (hboth : Loses store all marks both) : Alike final' both := by
  have hfinal : ∀ {target}, final.isFlagged target = true → both.isFlagged target = true :=
    hfirst.subset hboth hboth.kept fun root hroot ↦ hboth.start root ((hall root).2 (.inl hroot))
  refine alike_of_subset ?_ ?_
  · exact hsecond.subset hboth hfinal fun root hroot ↦ hboth.start root ((hall root).2 (.inr hroot))
  · refine hboth.subset hsecond (fun htarget ↦ hsecond.kept (hfirst.kept htarget))
      fun root hroot ↦ ?_
    obtain hroot | hroot := (hall root).1 hroot
    · exact hsecond.kept (hfirst.start root hroot)
    · exact hsecond.start root hroot

/-- A slice of a forward pass succeeds and leaves as flagged the least set with the earlier flags and
the roots that holds every known node with a dependency in it.  Repeating it changes nothing, more
roots flag more, and slicing from some roots and then from others comes to the same as slicing from
all of them at once, and as slicing in the other order. -/
theorem forward_accumulates (flags : Std.HashSet Target) (store : Store) (roots more : List Target) :
    ∃ final, forward ⟨.forward, flags⟩ store roots = .ok final ∧ final.direction = .forward ∧
      Loses store roots ⟨.forward, flags⟩ final ∧
      (∃ again, forward final store roots = .ok again ∧ Alike again final) ∧
      ∃ other, forward ⟨.forward, flags⟩ store more = .ok other ∧
        (roots ⊆ more → ∀ {target}, final.isFlagged target = true → other.isFlagged target = true) ∧
        ∃ both later last, forward ⟨.forward, flags⟩ store (roots ++ more) = .ok both ∧
          forward final store more = .ok later ∧ Alike later both ∧
          forward other store roots = .ok last ∧ Alike last both := by
  have hstart : (⟨.forward, flags⟩ : Marks).direction = .forward := rfl
  obtain ⟨final, hforward, hdirection, hloses⟩ := forward_loses hstart store roots
  obtain ⟨other, hother, hdirection', hloses'⟩ := forward_loses hstart store more
  obtain ⟨both, hboth, -, hlosesBoth⟩ := forward_loses hstart store (roots ++ more)
  obtain ⟨again, hagain, -, hlosesAgain⟩ := forward_loses hdirection store roots
  obtain ⟨later, hlater, -, hlosesLater⟩ := forward_loses hdirection store more
  obtain ⟨last, hlast, -, hlosesLast⟩ := forward_loses hdirection' store roots
  have hrepeated : Alike again final :=
    alike_of_subset (hlosesAgain.subset hloses id hloses.start) hlosesAgain.kept
  refine ⟨final, hforward, hdirection, hloses, ⟨again, hagain, hrepeated⟩, other, hother,
    fun hsubset ↦ ?_, both, later, last, hboth, hlater, ?_, hlast, ?_⟩
  · exact hloses.subset hloses' hloses'.kept fun root hroot ↦ hloses'.start root (hsubset hroot)
  · exact hloses.alike_append hlosesLater (fun _ ↦ List.mem_append) hlosesBoth
  · exact hloses'.alike_append hlosesLast (fun _ ↦ List.mem_append.trans or_comm) hlosesBoth

end Whence.Slice
