import Mathlib.Data.List.Perm.Basic
import Whence.Proofs.Clauses.Correctness

/-!
# The order of clauses

Whether clauses are accepted depends on their order in one situation only: a clause occurs twice, and
another clause asks in its last test for another constructor than the repeated one.  Otherwise each
two clauses have to part or to repeat each other, whatever their order.  The order has no part in
what a match selects.
-/

namespace Whence

open Program Test

variable {program final : Program} {clauses others : List Clause}

namespace Test

theorem parts_comm (test other : Test) : test.parts other = other.parts test := by
  cases test with
  | constructor tag =>
    cases other with
    | constructor tag' => simp [parts, eq_comm]
    | _ => rfl
  | _ => cases other <;> rfl

/-- The two sides part from each other or not at all. -/
theorem isSome_parting?_comm (tests others : List Test) :
    (parting? tests others).isSome = (parting? others tests).isSome := by
  induction tests generalizing others with
  | nil => cases others <;> rfl
  | cons test tests ih =>
    cases others with
    | nil => rfl
    | cons other others =>
      by_cases hsame : test = other
      · subst hsame
        rw [parting?_cons_self, parting?_cons_self, ih]
      · cases hparts : test.parts other with
        | true =>
          rw [parting?_of_parts hparts, parting?_of_parts (parts_comm test other ▸ hparts)]
          rfl
        | false =>
          rw [parting?_of_not_parts hsame hparts,
            parting?_of_not_parts (Ne.symm hsame) (parts_comm test other ▸ hparts)]

end Test

namespace Clause

/-- The two clauses make the same tests and select the same body. -/
def Repeats (clause other : Clause) : Prop :=
  clause.tests = other.tests ∧ clause.body = other.body

/-- The two clauses come to ask for different constructors, or they repeat each other. -/
def Compatible (clause other : Clause) : Prop :=
  (parting? clause.tests other.tests).isSome = true ∨ clause.Repeats other

/-- No clause that occurs twice differs from another one in its last test. -/
def Undisputed (clauses : List Clause) : Prop :=
  clauses.Pairwise fun clause other ↦ clause.Repeats other →
    ∀ rival ∈ clauses, parting? rival.tests other.tests ≠ some []

theorem Repeats.symm {clause other : Clause} (hrepeats : clause.Repeats other) :
    other.Repeats clause :=
  ⟨hrepeats.1.symm, hrepeats.2.symm⟩

theorem Compatible.symm {clause other : Clause} (hcompatible : clause.Compatible other) :
    other.Compatible clause :=
  hcompatible.imp (isSome_parting?_comm clause.tests other.tests ▸ ·) Repeats.symm

theorem compatible_of_joinable {before : List Clause} {clause : Clause}
    (hjoinable : Joinable (Listed before) clause.tests clause.body) :
    ∀ other ∈ before, other.Compatible clause := by
  intro other hother
  obtain hparts | ⟨htests, hbody, -⟩ := hjoinable _ _ ⟨other, hother, rfl, rfl⟩
  · exact .inl hparts
  · exact .inr ⟨htests, hbody⟩

/-- Clauses that are joined one after the other go together, each with all before it. -/
theorem Follow.compatible {before after : List Clause} (hfollow : Follow program before after) :
    after.Pairwise Compatible ∧ ∀ clause ∈ before, ∀ other ∈ after, clause.Compatible other := by
  induction after generalizing before with
  | nil => exact ⟨.nil, nofun⟩
  | cons first after ih =>
    obtain ⟨-, hjoinable, hrest⟩ := hfollow
    obtain ⟨hpairs, hcross⟩ := ih hrest
    refine ⟨.cons (hcross first (by simp)) hpairs, fun clause hclause ↦ ?_⟩
    exact List.forall_mem_cons.2
      ⟨compatible_of_joinable hjoinable clause hclause, hcross clause (by simp [hclause])⟩

/-- Clauses that go together are joined in the order in which they stand, if none is disputed. -/
theorem Undisputed.follow {before after : List Clause} (hundisputed : Undisputed (before ++ after))
    (hfits : ∀ clause ∈ after, clause.pattern.Fits program program.arity?)
    (hpairs : (before ++ after).Pairwise Compatible) : Follow program before after := by
  induction after generalizing before with
  | nil => trivial
  | cons first after ih =>
    obtain ⟨hfirst, hrest⟩ := List.forall_mem_cons.1 hfits
    refine ⟨hfirst, ?_, ?_⟩
    · rintro _ _ ⟨clause, hclause, rfl, rfl⟩
      obtain hparts | hrepeats := (List.pairwise_append.1 hpairs).2.2 clause hclause first (by simp)
      · exact .inl hparts
      · refine .inr ⟨hrepeats.1, hrepeats.2, ?_⟩
        rintro _ _ ⟨rival, hrival, rfl, rfl⟩
        exact (List.pairwise_append.1 hundisputed).2.2 clause hclause first (by simp) hrepeats rival
          (by simp [hrival])
    · rw [List.append_cons] at hundisputed hpairs
      exact ih hundisputed hrest hpairs

/-- Undisputed clauses are compiled if each fits and each two go together. -/
theorem Undisputed.admissible_iff (hundisputed : Undisputed clauses) :
    Admissible program clauses ↔ clauses ≠ [] ∧
      (∀ clause ∈ clauses, clause.pattern.Fits program program.arity?) ∧
        clauses.Pairwise Compatible := by
  refine and_congr_right fun _ ↦ ⟨fun hfollow ↦ ⟨hfollow.fits, hfollow.compatible.1⟩, ?_⟩
  rintro ⟨hfits, hpairs⟩
  exact @Undisputed.follow program [] clauses hundisputed hfits hpairs

theorem Undisputed.perm (hundisputed : Undisputed clauses) (hperm : clauses.Perm others) :
    Undisputed others := by
  have hpairs := hperm.pairwise hundisputed ?_
  · exact hpairs.imp fun hlast hrepeats rival hrival ↦
      hlast hrepeats rival (hperm.mem_iff.2 hrival)
  · intro clause other hlast hrepeats rival hrival
    rw [← hrepeats.1]
    exact hlast hrepeats.symm rival hrival

/-- If nothing is disputed, then clauses may be compiled in every order or in none. -/
theorem Undisputed.admissible_perm (hundisputed : Undisputed clauses)
    (hperm : clauses.Perm others) : Admissible program clauses ↔ Admissible program others := by
  have hpairs : clauses.Pairwise Compatible ↔ others.Pairwise Compatible :=
    hperm.pairwise_iff Compatible.symm
  rw [hundisputed.admissible_iff, (hundisputed.perm hperm).admissible_iff, hpairs]
  simp only [← List.length_pos_iff, hperm.length_eq, hperm.mem_iff]

/-- Clauses that may be compiled in every order are undisputed, for a disputed clause is refused when
it is repeated after its rival. -/
theorem undisputed_of_admissible
    (hadmissible : ∀ others, clauses.Perm others → Admissible program others) :
    Undisputed clauses := by
  refine List.pairwise_iff_forall_sublist.2 fun {clause other} hboth hrepeats rival hrival hlast ↦ ?_
  obtain ⟨rest, hperm⟩ := hboth.exists_perm_append
  have hrest : rival ∈ rest := by
    have hdifferent : rival.tests ≠ other.tests := by
      intro hsame
      rw [hsame, parting?_self] at hlast
      cases hlast
    have hrival : rival = clause ∨ rival = other ∨ rival ∈ rest := by
      simpa using hperm.mem_iff.1 hrival
    obtain rfl | rfl | hrest := hrival
    · exact absurd hrepeats.1 hdifferent
    · exact absurd rfl hdifferent
    · exact hrest
  obtain ⟨front, back, rfl⟩ := List.append_of_mem hrest
  have hmoved : ((clause :: other :: front) ++ rival :: back).Perm
      (rival :: clause :: other :: (front ++ back)) := List.perm_middle
  obtain ⟨-, -, -, -, -, -, hjoinable, -⟩ := hadmissible _ (hperm.trans hmoved)
  obtain hparts | ⟨-, -, hnever⟩ := hjoinable _ _ ⟨clause, by simp, hrepeats.1, rfl⟩
  · simp at hparts
  · exact hnever _ _ ⟨rival, by simp, rfl, rfl⟩ hlast

end Clause

namespace Pattern

mutual

/-- What a pattern binds does not change when the program grows. -/
theorem bindings?_eq {pattern : Pattern} (hfits : pattern.Fits program program.arity?)
    (hgrows : program.Grows final) (store : Store) (node : NodeId) :
    pattern.bindings? final store node = pattern.bindings? program store node := by
  cases pattern with
  | constructor tag args =>
    obtain ⟨⟨symbol, hsymbol, -⟩, hargs⟩ := hfits
    simp only [bindings?, hsymbol, hgrows.symbol hsymbol, bindingsAll?_eq hargs hgrows]
  | _ => rfl

theorem bindingsAll?_eq {patterns : List Pattern} (hfits : FitsAll program program.arity? patterns)
    (hgrows : program.Grows final) (store : Store) (nodes : List NodeId) :
    bindingsAll? final store patterns nodes = bindingsAll? program store patterns nodes := by
  cases patterns with
  | nil => cases nodes <;> rfl
  | cons pattern patterns =>
    cases nodes with
    | nil => rfl
    | cons node nodes =>
      simp only [bindingsAll?, bindings?_eq hfits.1 hgrows, bindingsAll?_eq hfits.2 hgrows]

end

end Pattern

/-- Two matches, each with a program of its own, come to the same body and bind the same nodes to the
same names, or both are refused. -/
inductive Outcome.Alike (program final : Program) :
    EStateM.Result Error Machine Outcome → EStateM.Result Error Machine Outcome → Prop
  | selected {outcome outcome' : Outcome} {machine machine' : Machine} {bindings : Bindings} :
      outcome.node = outcome'.node → outcome.next = outcome'.next →
      Spells program (machine.store.envs.entries outcome.env) bindings →
      Spells final (machine'.store.envs.entries outcome'.env) bindings →
      Alike program final (.ok outcome machine) (.ok outcome' machine')
  | refused {expected expected' found found' : String} {machine machine' : Machine} :
      Alike program final (.error (.demandMismatch expected found) machine)
        (.error (.demandMismatch expected' found') machine')

/-- Two lists of the same clauses select alike. -/
theorem Clause.Selects.alike {later later' : Program} {store : Store} {node : NodeId}
    {result result' : EStateM.Result Error Machine Outcome}
    (hselects : Clause.Selects later store clauses node result)
    (hselects' : Clause.Selects later' store others node result')
    (hmem : ∀ clause, clause ∈ clauses ↔ clause ∈ others)
    (hbindings : ∀ clause ∈ clauses,
      clause.pattern.bindings? later store node = clause.pattern.bindings? later' store node) :
    Outcome.Alike later later' result result' := by
  cases hselects with
  | selected hclause hfound hnode hnext hspells _ =>
    cases hselects' with
    | selected _ _ hnode' hnext' hspells' hunique =>
      obtain ⟨hbody, rfl⟩ := hunique _ ((hmem _).1 hclause) _ (hbindings _ hclause ▸ hfound)
      refine .selected (hnode.trans hnode'.symm) ?_ hspells hspells'
      rw [hnext, hnext', hbody]
    | refused hnone =>
      rw [hbindings _ hclause, hnone _ ((hmem _).1 hclause)] at hfound
      cases hfound
  | refused hnone =>
    cases hselects' with
    | selected hclause hfound =>
      have hclause := (hmem _).2 hclause
      rw [← hbindings _ hclause, hnone _ hclause] at hfound
      cases hfound
    | refused _ => exact .refused

/-- Undisputed clauses are accepted in every order or in none.  In whatever two orders clauses are
accepted, and however the two programs are built further, both demands match a complete node
alike. -/
theorem Program.Built.clauses_reorder (hbuilt : program.Built) (hperm : clauses.Perm others) :
    (Clause.Undisputed clauses →
      ((∃ demand final, Builder.Accepts program clauses demand final) ↔
        ∃ demand final, Builder.Accepts program others demand final)) ∧
    ∀ demand final, Builder.Accepts program clauses demand final →
      ∀ demand' final', Builder.Accepts program others demand' final' →
        ∀ later later', final.BuiltFrom later → final'.BuiltFrom later' →
          ∀ reach evaluate machine node, machine.store.envs.Canonical →
            machine.store.Complete program.arity? node →
              Outcome.Alike later later' (Matching.node later reach evaluate node demand machine)
                (Matching.node later' reach evaluate node demand' machine) := by
  have hinterned := hbuilt.interned
  constructor
  · intro hundisputed
    rw [hbuilt.accepts_iff, hbuilt.accepts_iff]
    exact hundisputed.admissible_perm hperm
  · intro demand final haccepts demand' final' haccepts' later later' hlater hlater' reach evaluate
      machine node henvs hcomplete
    obtain ⟨hextended, hadmissible, -⟩ := haccepts.lists hinterned
    obtain ⟨hextended', -, -⟩ := haccepts'.lists hinterned
    have hgrows := hextended.toGrows.trans (hlater.grows hextended.interned).2
    have hgrows' := hextended'.toGrows.trans (hlater'.grows hextended'.interned).2
    refine (haccepts.selects hinterned hlater reach evaluate henvs hcomplete).alike
      (haccepts'.selects hinterned hlater' reach evaluate henvs hcomplete)
      (fun _ ↦ hperm.mem_iff) fun clause hclause ↦ ?_
    have hfits := hadmissible.2.fits clause hclause
    rw [Pattern.bindings?_eq hfits hgrows, Pattern.bindings?_eq hfits hgrows']

/-- Clauses are accepted in every order if and only if they are accepted in one and none is
disputed. -/
theorem Program.Built.accepts_every_order_iff (hbuilt : program.Built) :
    (∀ others, clauses.Perm others → ∃ demand final, Builder.Accepts program others demand final) ↔
      (∃ demand final, Builder.Accepts program clauses demand final) ∧
        Clause.Undisputed clauses := by
  simp only [hbuilt.accepts_iff]
  constructor
  · exact fun hall ↦ ⟨hall clauses .rfl, Clause.undisputed_of_admissible hall⟩
  · rintro ⟨hadmissible, hundisputed⟩ others hperm
    exact (hundisputed.admissible_perm hperm).1 hadmissible

/-! ## A repeated clause -/

namespace Clause

theorem onTruth_undisputed : Undisputed onTruth := by
  refine .cons ?_ (.cons nofun .nil)
  rintro other hother ⟨htests, -⟩
  cases List.mem_singleton.1 hother
  exact absurd htests (by decide)

end Clause

theorem Program.clauses_reorder_onTruth : ∃ demand final demand' final',
    Builder.Accepts twoTexts Clause.onTruth demand final ∧
      Builder.Accepts twoTexts Clause.onTruth.reverse demand' final' ∧ ∀ evaluate,
        Outcome.Alike final final' (Matching.node final 0 evaluate ⟨0⟩ demand ⟨Store.oneTruth, {}⟩)
          (Matching.node final' 0 evaluate ⟨0⟩ demand' ⟨Store.oneTruth, {}⟩) := by
  obtain ⟨haccepted, halike⟩ :=
    twoTexts_built.clauses_reorder (List.reverse_perm Clause.onTruth).symm
  obtain ⟨demand, final, haccepts⟩ := twoTexts_built.accepts_iff.2 Clause.onTruth_admissible
  obtain ⟨demand', final', haccepts'⟩ :=
    (haccepted Clause.onTruth_undisputed).1 ⟨demand, final, haccepts⟩
  have harity : twoTexts.arity? .trueTag = some 0 :=
    Orderly.initial.builtins (.trueTag, 0) (by decide)
  exact ⟨demand, final, demand', final', haccepts, haccepts', fun evaluate ↦
    halike demand final haccepts demand' final' haccepts' final final' .refl .refl 0 evaluate
      ⟨Store.oneTruth, {}⟩ ⟨0⟩ .default (Store.oneTruth_complete harity)⟩

/-- A clause may be repeated at once, but not after its rival. -/
theorem Program.clauses_reorder_refused :
    let whenTrue : Clause := ⟨.constructor "True" [], ⟨0⟩⟩
    let whenFalse : Clause := ⟨.constructor "False" [], ⟨1⟩⟩
    [whenTrue, whenTrue, whenFalse].Perm [whenTrue, whenFalse, whenTrue] ∧
      (∃ demand final, Builder.Accepts twoTexts [whenTrue, whenTrue, whenFalse] demand final) ∧
        ¬∃ demand final, Builder.Accepts twoTexts [whenTrue, whenFalse, whenTrue] demand final := by
  intro whenTrue whenFalse
  have htrue : whenTrue.pattern.Fits twoTexts twoTexts.arity? :=
    Clause.fits_builtin 0 rfl (by decide)
  have hfalse : whenFalse.pattern.Fits twoTexts twoTexts.arity? :=
    Clause.fits_builtin 1 rfl (by decide)
  refine ⟨.cons _ (.swap _ _ _), ?_, ?_⟩
  · rw [twoTexts_built.accepts_iff]
    refine ⟨List.cons_ne_nil _ _, htrue, ?_, htrue, ?_, hfalse, ?_, trivial⟩
    · rintro _ _ ⟨clause, hclause, -⟩
      cases hclause
    · rintro _ _ ⟨clause, hclause, rfl, rfl⟩
      cases List.mem_singleton.1 hclause
      refine .inr ⟨rfl, rfl, ?_⟩
      rintro _ _ ⟨rival, hrival, rfl, rfl⟩
      cases List.mem_singleton.1 hrival
      simp
    · rintro _ _ ⟨clause, hclause, rfl, rfl⟩
      have hsame : clause = whenTrue := by simpa using hclause
      subst hsame
      exact .inl (by decide)
  · rw [twoTexts_built.accepts_iff]
    rintro ⟨-, -, -, -, -, -, hjoinable, -⟩
    obtain hparts | ⟨-, -, hnever⟩ := hjoinable _ _ ⟨whenTrue, by simp, rfl, rfl⟩
    · simp at hparts
    · exact hnever _ _ ⟨whenFalse, by simp, rfl, rfl⟩ (by decide)

end Whence
