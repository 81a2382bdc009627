import Whence.Proofs.Calls.Failing
import Whence.Proofs.Knots.Names
import Whence.Proofs.Sessions

/-!
# Recursive groups tie the knot

In a session that has opened no revision every group can be closed over every environment, whatever
has been taken in, changed, bound and evaluated before.  Closing gives each definition a node with its
closure in the one environment of the group.  Whatever happens later, during an evaluation or between
evaluations, closing the group and looking its names up finds the same nodes and changes nothing.
-/

namespace Whence

open Machine

variable {program : Program} {store : Store} {machine : Machine} {session : Session}

namespace Program

/-- A function of one argument, a function of two arguments, and a group that defines one name by
the first and then by the second. -/
def twoFunctions : Program :=
  let calls : List Builder.Call :=
    [.text "done", .lambda "n" ⟨0⟩, .lambda "m" ⟨1⟩, .group [("f", ⟨1⟩), ("f", ⟨2⟩)]]
  calls.foldl (fun program call ↦ (Builder.outcome call.run program).2) .initial

theorem twoFunctions_built : twoFunctions.Built :=
  .call _ (.call _ (.call _ (.call _ .initial)))

theorem groups_lambda (program : Program) (name : String) (body : ExprId) :
    (Builder.outcome (Builder.Call.lambda name body).run program).2.groups = program.groups :=
  (Builder.spares_internDemand (program.intern name).2 _).groups

theorem groups_group (program : Program) (name : String) (first second : ExprId) :
    (Builder.outcome (Builder.Call.group [(name, first), (name, second)]).run program).2.groups =
      program.groups.push ⟨[⟨(program.intern name).1, first⟩, ⟨(program.intern name).1, second⟩]⟩ := by
  have hagain := SymbolTable.intern_again program.symbols name
  change program.groups.push ⟨[⟨(program.symbols.intern name).1, first⟩,
    ⟨((program.symbols.intern name).2.intern name).1, second⟩]⟩ = _
  rw [hagain]
  rfl

theorem group_twoFunctions : ∃ name, (twoFunctions.group ⟨0⟩).entries =
    [⟨name, ⟨1⟩⟩, ⟨name, ⟨2⟩⟩] := by
  have hgroups : twoFunctions.groups = _ := groups_group _ "f" ⟨1⟩ ⟨2⟩
  rw [groups_lambda, groups_lambda] at hgroups
  have hempty : (Builder.outcome (Builder.Call.text "done").run initial).2.groups = #[] :=
    initial_empty.2
  rw [hempty] at hgroups
  generalize (Program.intern _ "f").1 = name at hgroups
  refine ⟨name, ?_⟩
  rw [group, hgroups]
  rfl

end Program

theorem Machine.KeepsKnots.bindPrimitives {env : EnvId} (hknotted : machine.Knotted program)
    (henv : machine.store.envs.Contains env) (primitives : List Primitive) :
    KeepsKnots program (Evaluation.bindPrimitives program env primitives) machine
      fun library final ↦ final.envs.Contains library := by
  induction primitives generalizing machine env with
  | nil => exact of_pure hknotted henv
  | cons primitive rest ih =>
    unfold Evaluation.bindPrimitives
    split
    · exact of_throw hknotted _
    · refine bind (.primitive hknotted primitive) fun {node _} hnode _ ↦ ?_
      refine bind (extend hnode.knotted (hnode.contains henv) _ node) fun hextended hinner ↦ ?_
      exact ih hextended.knotted hinner

theorem Value.Within.framed {value : Value} (hwithin : value.Within store) :
    value.Framed store.envs := by
  cases value with
  | closure made => exact hwithin
  | _ => trivial

namespace Session

/-- The session works on a knotted machine. -/
def Knotted (session : Session) : Prop := session.machine.Knotted session.program

/-- The session has gone on with the same program, in steps. -/
structure GoesOn (session final : Session) : Prop where
  program : final.program = session.program
  advances : final.machine.Advances session.program session.machine

theorem GoesOn.knotted {final : Session} (hgoesOn : session.GoesOn final) : final.Knotted := by
  rw [Knotted, hgoesOn.program]
  exact hgoesOn.advances.knotted

theorem GoesOn.trans {middle final : Session} (hfirst : session.GoesOn middle)
    (hsecond : middle.GoesOn final) : session.GoesOn final :=
  ⟨hsecond.program.trans hfirst.program,
    (hfirst.program ▸ hsecond.advances).trans hfirst.advances⟩

/-- A session that has been made is knotted. -/
theorem knotted_of_new {settings : Settings} (hnew : Session.new program settings = .ok session) :
    session.program = program ∧ session.Knotted := by
  have hempty : Machine.Knotted program {} :=
    ⟨.empty program, rfl, fun hfound ↦ by simp at hfound⟩
  have hopening := KeepsKnots.bindPrimitives hempty hempty.store.coherent.envs.contains_empty
    Primitive.all
  cases hopened : Evaluation.openLibrary program {} with
  | ok library machine =>
    rw [new_eq_of_opened hopened] at hnew
    cases hnew
    exact ⟨rfl, (Stops.ok hopening hopened).1.knotted⟩
  | error error machine =>
    have hfailed : openLibrary (bare program settings) =
        .error error ⟨program, settings, machine, {}, .empty⟩ := by
      change run (Evaluation.openLibrary program) (bare program settings) = _
      simp only [run, bare, hopened]
    simp only [Session.new, hfailed] at hnew
    cases hnew

theorem goesOn_respond {α : Type} {computation : Evaluating α} {done : α → Store → Prop}
    (hkeeps : KeepsKnots session.program computation session.machine done) (wrap : α → Answer) :
    session.GoesOn (session.respond wrap (computation session.machine)).2 := by
  cases hrun : computation session.machine with
  | ok result machine => exact ⟨rfl, (Stops.ok hkeeps hrun).1⟩
  | error error machine =>
    have hadvances := Stops.error hkeeps hrun
    exact ⟨rfl, hadvances⟩

/-- A call that opens no revision keeps a session knotted. -/
theorem Knotted.answer (hknotted : session.Knotted) {call : Call} (hroot : call ≠ .spawn)
    (hfits : call.Fits session.store) : session.GoesOn (session.answer call).2 := by
  have hcoherent : session.store.Coherent := hknotted.store.coherent
  cases call with
  | input value =>
    rw [answer_input]
    exact goesOn_respond (KeepsKnots.perform hknotted (.input hcoherent hfits.framed)
      (.input value session.store) (Store.envs_input session.store value)) _
  | bind env name node =>
    cases hname : session.program.symbol? name with
    | none =>
      rw [answer_bind_of_none hname]
      exact ⟨rfl, .refl hknotted⟩
    | some symbol =>
      rw [answer_bind_of_some hname]
      exact ⟨rfl, (KeepsKnots.extend hknotted hfits.1 symbol node).advances⟩
  | spawn => exact absurd rfl hroot
  | update node value =>
    rw [answer_update]
    exact goesOn_respond (KeepsKnots.perform hknotted (.update hcoherent node hfits.2.framed)
      (.update node value session.store) (Store.envs_update session.store node value)) _
  | evaluate env expr =>
    have hnested := Evaluation.keepsKnots_nested session.program session.settings
      session.settings.maxDepth hknotted hfits expr .everything
    have hevaluate : KeepsKnots session.program (Evaluation.evaluate session.program
        session.settings env expr) session.machine fun _ _ ↦ True :=
      hnested.bind fun hmiddle _ ↦ .of_pure hmiddle.knotted trivial
    rw [answer_evaluate]
    exact goesOn_respond hevaluate _

theorem Knotted.after (hknotted : session.Knotted) {calls : List Call}
    (hroot : ∀ call ∈ calls, call ≠ .spawn) (hadmits : session.Admits calls) :
    session.GoesOn (session.after calls) := by
  induction calls generalizing session with
  | nil => exact ⟨rfl, .refl hknotted⟩
  | cons call calls ih =>
    have hfirst := hknotted.answer (hroot call List.mem_cons_self) hadmits.1
    exact hfirst.trans (ih hfirst.knotted (fun call hcall ↦ hroot call (List.mem_cons_of_mem _ hcall))
      hadmits.2)

/-- The session with another store. -/
def withStore (session : Session) (store : Store) : Session :=
  { session with machine := { session.machine with store } }

/-- In a session that has opened no revision, a group is closed over any environment.  Each definition
gets a node with its closure in the same environment, which is the one that closing the group gives;
nothing happens if that environment was there before.  From then on, whatever steps the store takes,
within an evaluation or outside, the operations find the same nodes and leave the machine as it is.
There a name leads to the node of its last definition, as long as it is not bound anew, and any other
name to where it leads around the group; and evaluating a name is explained by that node. -/
theorem knot_tied {settings : Settings} (hnew : Session.new program settings = .ok session)
    {calls : List Call} (hroot : ∀ call ∈ calls, call ≠ .spawn) (hadmits : session.Admits calls)
    {env : EnvId} (henv : (session.after calls).store.envs.Contains env) (group : GroupId) :
    let before := session.after calls
    let scope : Scope := ⟨env, group⟩
    ∃ closed members store,
      Rules.closeMembers program scope before.machine =
        .ok members { before.machine with store } ∧
      (∃ made, Rules.closeGroup program scope before.machine = .ok closed made) ∧
      ((∃ id, Closes program before.store scope id) → store = before.store) ∧
      (∀ later : Machine, store.Steps later.store → later.Ties program scope closed members) ∧
      ∀ more : List Call, (∀ call ∈ more, call ≠ .spawn) → (before.withStore store).Admits more →
        ∀ {inner name node},
          ((before.withStore store).after more).store.envs.Extends inner closed name →
          Member.last? members name = some node →
            ((before.withStore store).after more).machine.LeadsTo program inner name node := by
  intro before scope
  obtain ⟨rfl, hfresh⟩ := knotted_of_new hnew
  have hbefore : session.GoesOn before := hfresh.after hroot hadmits
  have hknotted : before.machine.Knotted session.program := hbefore.advances.knotted
  have hscope : before.machine.store.envs.Contains scope.env := henv
  obtain ⟨closed, members, store, hclose, hclosing⟩ := hknotted.store.closeMembers hscope
  have hclosed : Closed session.program store scope closed members :=
    .of_members hclosing.knotted.coherent hclosing.members
  refine ⟨closed, members, store, hclose, ?_, ?_, fun later hsteps ↦ (hclosed.steps hsteps).ties, ?_⟩
  · exact ⟨_, by rw [Rules.closeGroup_eq, hclosing.env]⟩
  · rintro ⟨id, hcloses⟩
    exact hclosing.again hcloses
  · intro more hroot' hadmits' inner name node hextends hlast
    have hadvances := hknotted.advances hclosing.knotted hclosing.steps
    have hstored : (before.withStore store).Knotted := by
      rw [Knotted, withStore, hbefore.program]
      exact hadvances.knotted
    have hafter := hstored.after hroot' hadmits'
    have hprogram : (before.withStore store).program = session.program := hbefore.program
    have hadvances' := hafter.advances
    rw [hprogram] at hadvances'
    exact (hclosing.members.steps hclosing.knotted.coherent.toCurrent hadvances'.steps).leadsTo
      hadvances'.knotted hextends hlast

/-- In the environment of the group the name leads to the second function. -/
theorem knot_tied_twoFunctions : ∃ session closed name first second store,
    Session.new .twoFunctions {} = .ok session ∧
    Rules.closeMembers .twoFunctions ⟨session.library, ⟨0⟩⟩ session.machine =
      .ok [⟨name, first⟩, ⟨name, second⟩] { session.machine with store } ∧
    first ≠ second ∧
    Machine.LeadsTo .twoFunctions { session.machine with store } closed name second := by
  obtain ⟨session, hnew, hsane, -⟩ := exists_new Program.twoFunctions_built {}
  obtain ⟨closed, members, store, hclose, -, -, hlater, hmore⟩ :=
    @knot_tied _ _ _ hnew [] (List.forall_mem_nil _) trivial _ hsane.library ⟨0⟩
  obtain ⟨name, hentries⟩ := Program.group_twoFunctions
  obtain ⟨hholds, -⟩ := hlater { session.machine with store } .refl
  have hclosures := hholds.2
  rw [hentries] at hclosures
  cases hclosures with
  | @cons _ _ first _ hfirst hrest =>
    cases hrest with
    | @cons _ _ second _ hsecond hrest =>
      cases hrest
      refine ⟨session, closed, name, first, second, store, hnew, hclose, ?_, ?_⟩
      · rintro rfl
        have hsame := hfirst.knowledge.symm.trans hsecond.knowledge
        cases hsame
      · have hlast : Member.last? [⟨name, first⟩, ⟨name, second⟩] name = some second := by
          simp [Member.last?]
        exact hmore [] (List.forall_mem_nil _) trivial ⟨[], rfl, List.forall_mem_nil _⟩ hlast

end Session

end Whence
