import Whence.Proofs.Inputs
import Whence.Proofs.Successes
import Whence.Session

/-!
# Runs of a session

A run is a sequence of calls, each of which may succeed or fail.  As long as no revision is opened
and calls refer only to what the session has handed out, the store stays sound and whatever the
session remembers can be found again.
-/

namespace Whence.Session

/-- A call of a session. -/
inductive Call where
  | input (value : Value)
  | bind (env : EnvId) (name : String) (node : NodeId)
  | spawn
  | update (node : NodeId) (value : Value)
  | evaluate (env : EnvId) (expr : ExprId)
  deriving DecidableEq, Repr

/-- What a call returns. -/
inductive Answer where
  | node (id : NodeId)
  | env (id : Option EnvId)
  | revision (id : Revision)
  | done
  deriving DecidableEq, Repr

namespace Call

def perform : Call → InSession Answer
  | .input value => .node <$> Session.input value
  | .bind env name node => .env <$> Session.bind env name node
  | .spawn => .revision <$> Session.spawn
  | .update node value => (fun _ ↦ .done) <$> Session.update node value
  | .evaluate env expr => .node <$> Session.evaluateIn env expr

/-- The call neither opens a revision nor changes an input. -/
def isPlain : Call → Bool
  | .spawn | .update _ _ => false
  | _ => true

/-- The call refers only to nodes and environments that exist. -/
def Fits (store : Store) : Call → Prop
  | .input value => value.Within store
  | .bind env _ node => store.envs.Contains env ∧ store.Contains node
  | .spawn => True
  | .update node value => store.Contains node ∧ value.Within store
  | .evaluate env _ => store.envs.Contains env

/-- What the call takes in has the property. -/
def Brings (property : Value → Prop) : Call → Prop
  | .input value => property value
  | _ => True

end Call

/-- The answer to a call, and the session after it. -/
def answer (session : Session) (call : Call) : Except Error Answer × Session :=
  match call.perform session with
  | .ok result session => (.ok result, session)
  | .error error session => (.error error, session)

/-- The session after a run. -/
def after (session : Session) (calls : List Call) : Session :=
  calls.foldl (fun session call ↦ (session.answer call).2) session

/-- The answers to the calls of a run, each with the store after the call. -/
def play (session : Session) : List Call → List (Except Error Answer × Store)
  | [] => []
  | call :: calls =>
    ((session.answer call).1, (session.answer call).2.store) :: (session.answer call).2.play calls

/-- All calls of the run refer only to what exists when they are made. -/
def Admits (session : Session) : List Call → Prop
  | [] => True
  | call :: calls => call.Fits session.store ∧ (session.answer call).2.Admits calls

/-- The store of the session is sound, its memory is right and its library is there. -/
structure Sane (session : Session) : Prop where
  sound : Sound session.program session.store
  consistent : session.machine.Consistent session.program
  library : session.store.envs.Contains session.library

variable {program : Program} {session : Session}

/-- What a session starts with: a library and nothing that was evaluated. -/
structure Fresh (program : Program) (machine : Machine) (library : EnvId) : Prop where
  opened : Evaluation.openLibrary program {} = .ok library machine
  opening : Opening program machine.store
  memo : machine.memo = {}
  sane : ∀ settings, Sane ⟨program, settings, machine, {}, library⟩

theorem new_eq_of_opened {machine : Machine} {library : EnvId}
    (hopened : Evaluation.openLibrary program {} = .ok library machine) (settings : Settings) :
    Session.new program settings = .ok ⟨program, settings, machine, {}, library⟩ := by
  have hlibrary : openLibrary (bare program settings) =
      .ok library ⟨program, settings, machine, {}, .empty⟩ := by
    change run (Evaluation.openLibrary program) (bare program settings) = _
    simp only [run, bare, hopened]
  simp only [Session.new, hlibrary]

theorem Fresh.new_eq {machine : Machine} {library : EnvId} (hfresh : Fresh program machine library)
    (settings : Settings) :
    Session.new program settings = .ok ⟨program, settings, machine, {}, library⟩ :=
  new_eq_of_opened hfresh.opened settings

/-- A session can be made for every program that the builder makes, and its settings have no part in
what it starts with. -/
theorem exists_fresh (hbuilt : program.Built) : ∃ machine library, Fresh program machine library := by
  obtain ⟨library, machine, hopen, hopened⟩ := Opening.bindPrimitives_spec hbuilt.primed
    Primitive.all {} (.empty program) (Opening.empty program).envs.contains_empty
  refine ⟨machine, library, hopen, hopened.opening, hopened.memo, fun settings ↦
    ⟨hopened.opening.sound, ?_, hopened.contains⟩⟩
  refine ⟨fun primitive ↦ hopened.stocked primitive primitive.mem_all, ?_, fun hmemo ↦ ?_⟩
  · rw [hopened.memo]
  · rw [hopened.memo] at hmemo
    simp at hmemo

theorem exists_new (hbuilt : program.Built) (settings : Settings) :
    ∃ session, Session.new program settings = .ok session ∧ session.Sane ∧
      session.program = program ∧ session.settings = settings := by
  obtain ⟨machine, library, hfresh⟩ := exists_fresh hbuilt
  exact ⟨_, hfresh.new_eq settings, hfresh.sane settings, rfl, rfl⟩

/-! ## Calls -/

/-- The answer of a call that works on the machine alone. -/
def respond {α : Type} (session : Session) (wrap : α → Answer) :
    EStateM.Result Error Machine α → Except Error Answer × Session
  | .ok result machine => (.ok (wrap result), { session with machine })
  | .error error machine => (.error error, { session with machine })

theorem answer_of_run {α : Type} {call : Call} {evaluating : Evaluating α} {wrap : α → Answer}
    (hperform : call.perform session = (wrap <$> run evaluating) session) :
    session.answer call = session.respond wrap (evaluating session.machine) := by
  rw [answer, hperform]
  simp only [Functor.map, EStateM.map, run]
  cases evaluating session.machine <;> rfl

theorem answer_input (session : Session) (value : Value) :
    session.answer (.input value) =
      session.respond .node (Machine.perform (Store.input value) session.machine) :=
  answer_of_run rfl

theorem answer_evaluate (session : Session) (env : EnvId) (expr : ExprId) :
    session.answer (.evaluate env expr) = session.respond .node
      (Evaluation.evaluate session.program session.settings env expr session.machine) :=
  answer_of_run rfl

theorem answer_update (session : Session) (node : NodeId) (value : Value) :
    session.answer (.update node value) = session.respond (fun _ ↦ .done)
      (Machine.perform (Store.update node value) session.machine) :=
  answer_of_run rfl

theorem answer_bind_of_none {name : String} (hname : session.program.symbol? name = none)
    (env : EnvId) (node : NodeId) :
    session.answer (.bind env name node) = (.ok (.env none), session) := by
  have hbind : Session.bind env name node session = .ok none session := by
    rw [Session.bind, run_get_bind, hname]
    rfl
  simp only [answer, Call.perform, Functor.map, EStateM.map, hbind]

theorem answer_bind_of_some {name : String} {symbol : Symbol}
    (hname : session.program.symbol? name = some symbol) (env : EnvId) (node : NodeId) :
    session.answer (.bind env name node) =
      (.ok (.env (some (session.store.extend env symbol (.node node)).1)),
        { session with machine := { session.machine with
          store := (session.store.extend env symbol (.node node)).2 } }) := by
  have hbind : Session.bind env name node session =
      .ok (some (session.store.extend env symbol (.node node)).1)
        { session with machine := { session.machine with
          store := (session.store.extend env symbol (.node node)).2 } } := by
    rw [Session.bind, run_get_bind, hname]
    rfl
  simp only [answer, Call.perform, Functor.map, EStateM.map, hbind]

/-- A call changes the machine alone. -/
theorem exists_answer_eq (session : Session) (call : Call) :
    ∃ machine, (session.answer call).2 = { session with machine } := by
  have hrespond {α : Type} (wrap : α → Answer) (result : EStateM.Result Error Machine α) :
      ∃ machine, (session.respond wrap result).2 = { session with machine } := by
    cases result <;> exact ⟨_, rfl⟩
  cases call with
  | input value => exact answer_input session value ▸ hrespond _ _
  | bind env name node =>
    cases hname : session.program.symbol? name with
    | none => exact answer_bind_of_none hname env node ▸ ⟨session.machine, rfl⟩
    | some symbol => exact answer_bind_of_some hname env node ▸ ⟨_, rfl⟩
  | spawn => exact ⟨_, rfl⟩
  | update node value => exact answer_update session node value ▸ hrespond _ _
  | evaluate env expr => exact answer_evaluate session env expr ▸ hrespond _ _

theorem program_answer (session : Session) (call : Call) :
    (session.answer call).2.program = session.program := by
  obtain ⟨machine, hanswer⟩ := exists_answer_eq session call
  rw [hanswer]

theorem program_after (session : Session) (calls : List Call) :
    (session.after calls).program = session.program := by
  induction calls generalizing session with
  | nil => rfl
  | cons call calls ih => exact (ih _).trans (session.program_answer call)

theorem settings_answer (session : Session) (call : Call) :
    (session.answer call).2.settings = session.settings := by
  obtain ⟨machine, hanswer⟩ := exists_answer_eq session call
  rw [hanswer]

theorem settings_after (session : Session) (calls : List Call) :
    (session.after calls).settings = session.settings := by
  induction calls generalizing session with
  | nil => rfl
  | cons call calls ih => exact (ih _).trans (session.settings_answer call)

theorem library_answer (session : Session) (call : Call) :
    (session.answer call).2.library = session.library := by
  obtain ⟨machine, hanswer⟩ := exists_answer_eq session call
  rw [hanswer]

/-! ## What a call keeps -/

/-- What a call leaves as it was, and what it adds to. -/
structure Continues (session final : Session) : Prop where
  program : final.program = session.program
  settings : final.settings = session.settings
  library : final.library = session.library
  marks : final.marks = session.marks
  grows : session.store.Grows final.store

theorem Continues.refl (session : Session) : session.Continues session :=
  ⟨rfl, rfl, rfl, rfl, .refl _⟩

theorem Continues.trans {middle final : Session} (hfirst : session.Continues middle)
    (hsecond : middle.Continues final) : session.Continues final :=
  ⟨hsecond.program.trans hfirst.program, hsecond.settings.trans hfirst.settings,
    hsecond.library.trans hfirst.library, hsecond.marks.trans hfirst.marks,
    hfirst.grows.trans hsecond.grows⟩

namespace Sane

/-- A session stays in order if its machine does. -/
theorem withMachine (hsane : session.Sane) (machine : Machine)
    (hgrows : session.store.Grows machine.store) (hsound : Sound session.program machine.store)
    (hconsistent : machine.Consistent session.program) :
    Sane { session with machine } ∧ session.Continues { session with machine } :=
  ⟨⟨hsound, hconsistent, hgrows.envs.contains hsane.library⟩, ⟨rfl, rfl, rfl, rfl, hgrows⟩⟩

theorem input (hsane : session.Sane) (value : Value) (hwithin : value.Within session.store) :
    ∃ node final, session.answer (.input value) = (.ok (.node node), final) ∧ final.Sane ∧
      session.Continues final ∧ TakenIn session.store value node final.store := by
  obtain ⟨node, store, hinput, htaken, hsound⟩ := hsane.sound.input_spec hwithin
  obtain ⟨hsane', hcontinues⟩ := hsane.withMachine { session.machine with store } htaken.grows hsound
    (hsane.consistent.grow hsane.sound.envs htaken.grows)
  refine ⟨node, _, ?_, hsane', hcontinues, htaken⟩
  rw [answer_input, Machine.perform_ok hinput]
  rfl

theorem bind (hsane : session.Sane) {env : EnvId} {node : NodeId}
    (henv : session.store.envs.Contains env) (hnode : session.store.Contains node) (name : String) :
    (session.answer (.bind env name node)).2.Sane ∧
      session.Continues (session.answer (.bind env name node)).2 := by
  cases hname : session.program.symbol? name with
  | none =>
    rw [answer_bind_of_none hname]
    exact ⟨hsane, .refl session⟩
  | some symbol =>
    have hsound := hsane.sound.bindNodes [(symbol, .node node)] henv fun entry hentry ↦ by
      cases List.mem_singleton.1 hentry
      exact ⟨node, rfl, hnode⟩
    have hgrows : session.store.Grows (session.store.extend env symbol (.node node)).2 :=
      Store.withEnvs_grows (Environments.extend_grows session.store.envs env symbol (.node node))
    rw [answer_bind_of_some hname]
    exact hsane.withMachine
      { session.machine with store := (session.store.extend env symbol (.node node)).2 } hgrows hsound
      (hsane.consistent.grow hsane.sound.envs hgrows)

/-- What an evaluation comes to, and in which state it leaves the session. -/
theorem evaluate (hregular : session.program.Regular) (hsane : session.Sane) {env : EnvId}
    (henv : session.store.envs.Contains env) (expr : ExprId) :
    (session.answer (.evaluate env expr)).2.Sane ∧
      session.Continues (session.answer (.evaluate env expr)).2 ∧
      session.store.KeepsInputs (session.answer (.evaluate env expr)).2.store ∧
      ((∃ node, (session.answer (.evaluate env expr)).1 = .ok (.node node) ∧
        EvaluatesFully session.program session.store env expr node
          (session.answer (.evaluate env expr)).2.store) ∨
      ∃ error, (session.answer (.evaluate env expr)).1 = .error error ∧ (error.isLimit = true ∨
        Fails session.program (session.answer (.evaluate env expr)).2.store
          (.eval env expr .everything) error)) := by
  obtain ⟨hok, herror⟩ := Tied.evaluate (.sharing session.program rfl) hregular rfl rfl
    (fun depth ↦ Companion.sharing_remembers session.settings _) henv expr session.machine rfl
    hsane.sound hsane.consistent
  rw [answer_evaluate]
  cases hrun : Evaluation.evaluate session.program session.settings env expr session.machine with
  | ok node machine =>
    obtain ⟨hends, hevaluates, -⟩ := hok hrun
    obtain ⟨hsane', hcontinues⟩ :=
      hsane.withMachine machine hends.grows hends.sound hends.consistent
    exact ⟨hsane', hcontinues, hends.inputs, .inl ⟨node, rfl, hevaluates⟩⟩
  | error error machine =>
    obtain ⟨hends, hfails, -⟩ := herror hrun
    obtain ⟨hsane', hcontinues⟩ :=
      hsane.withMachine machine hends.grows hends.sound hends.consistent
    exact ⟨hsane', hcontinues, hends.inputs, .inr ⟨error, rfl, hfails⟩⟩

/-- What is evaluated at any depth but the last is evaluated in every session that allows some
nesting. -/
theorem evaluation_of_nested {env : EnvId} {expr : ExprId}
    (hnested : ∀ depth, ∃ outcome final, Evaluation.nested session.program session.settings
      (depth + 1) env expr .everything session.machine = .ok outcome final ∧
        session.store.Notes env expr final.store)
    (hdepth : 0 < session.settings.maxDepth) :
    ∃ node final, Evaluation.evaluate session.program session.settings env expr session.machine =
      .ok node final ∧ session.store.Notes env expr final.store := by
  obtain ⟨depth, hdepth⟩ := Nat.exists_eq_add_of_lt hdepth
  obtain ⟨outcome, final, hnested, hnotes⟩ := hnested depth
  refine ⟨outcome.node, final, ?_, hnotes⟩
  simp only [Evaluation.evaluate, Evaluation.under, hdepth, Nat.zero_add, Bind.bind, EStateM.bind,
    hnested]
  rfl

/-- What succeeds on the store of the session is answered. -/
theorem evaluate_of_succeeds (hsane : session.Sane) {env : EnvId} {expr : ExprId}
    (hsucceeds : Evaluation.Succeeds session.program session.store
      (Evaluation.evaluate session.program session.settings env expr)) :
    ∃ node, (session.answer (.evaluate env expr)).1 = .ok (.node node) := by
  obtain ⟨node, final, hevaluate⟩ :=
    hsucceeds session.machine rfl hsane.sound hsane.consistent
  rw [answer_evaluate, hevaluate]
  exact ⟨node, rfl⟩

theorem answer (hregular : session.program.Regular) (hsane : session.Sane) {call : Call}
    (hplain : call.isPlain = true) (hfits : call.Fits session.store) :
    (session.answer call).2.Sane ∧ session.Continues (session.answer call).2 := by
  cases call with
  | input value =>
    obtain ⟨node, final, hanswer, hsane', hcontinues, -⟩ := hsane.input value hfits
    rw [hanswer]
    exact ⟨hsane', hcontinues⟩
  | bind env name node => exact hsane.bind hfits.1 hfits.2 name
  | spawn => cases hplain
  | update node value => cases hplain
  | evaluate env expr =>
    obtain ⟨hsane', hcontinues, -⟩ := hsane.evaluate hregular hfits expr
    exact ⟨hsane', hcontinues⟩

theorem after (hregular : session.program.Regular) (hsane : session.Sane) {calls : List Call}
    (hplain : ∀ call ∈ calls, call.isPlain = true) (hadmits : session.Admits calls) :
    (session.after calls).Sane ∧ session.Continues (session.after calls) := by
  induction calls generalizing session with
  | nil => exact ⟨hsane, .refl session⟩
  | cons call calls ih =>
    obtain ⟨hsane', hcontinues⟩ := hsane.answer hregular (hplain call List.mem_cons_self) hadmits.1
    obtain ⟨hsane'', hcontinues'⟩ := ih (hcontinues.program ▸ hregular) hsane'
      (fun call hcall ↦ hplain call (List.mem_cons_of_mem _ hcall)) hadmits.2
    exact ⟨hsane'', hcontinues.trans hcontinues'⟩

theorem inputsSatisfy_answer (hregular : session.program.Regular) (hsane : session.Sane)
    {call : Call} (hplain : call.isPlain = true) {property : Value → Prop}
    (hbrings : call.Brings property) (hfits : call.Fits session.store)
    (hinputs : session.store.InputsSatisfy property) :
    (session.answer call).2.store.InputsSatisfy property := by
  cases call with
  | input value =>
    obtain ⟨node, final, hanswer, -, -, htaken⟩ := hsane.input value hfits
    rw [hanswer]
    exact htaken.inputsSatisfy hbrings hinputs
  | bind env name node =>
    cases hname : session.program.symbol? name with
    | none =>
      rw [answer_bind_of_none hname]
      exact hinputs
    | some symbol =>
      rw [answer_bind_of_some hname]
      exact hinputs
  | spawn => cases hplain
  | update node value => cases hplain
  | evaluate env expr =>
    obtain ⟨-, hcontinues, hkeeps, -⟩ := hsane.evaluate hregular hfits expr
    exact hsane.sound.toTidy.inputsSatisfy hcontinues.grows hkeeps hinputs

/-- The inputs of a run have a property if all that is taken in has it. -/
theorem inputsSatisfy_after (hregular : session.program.Regular) (hsane : session.Sane)
    {calls : List Call} (hplain : ∀ call ∈ calls, call.isPlain = true) {property : Value → Prop}
    (hbrings : ∀ call ∈ calls, call.Brings property) (hadmits : session.Admits calls)
    (hinputs : session.store.InputsSatisfy property) :
    (session.after calls).store.InputsSatisfy property := by
  induction calls generalizing session with
  | nil => exact hinputs
  | cons call calls ih =>
    have hplain' := hplain call List.mem_cons_self
    obtain ⟨hsane', hcontinues⟩ := hsane.answer hregular hplain' hadmits.1
    exact ih (hcontinues.program ▸ hregular) hsane'
      (fun call hcall ↦ hplain call (List.mem_cons_of_mem _ hcall))
      (fun call hcall ↦ hbrings call (List.mem_cons_of_mem _ hcall)) hadmits.2
      (hsane.inputsSatisfy_answer hregular hplain' (hbrings call List.mem_cons_self) hadmits.1
        hinputs)

/-- Three levels of nesting suffice for a binding of a text with the name as its body. -/
theorem evaluate_oneLet (hsane : session.Sane) (hprogram : session.program = .oneLet) {env : EnvId}
    (henv : session.store.envs.Contains env) (hlevels : 3 ≤ session.settings.maxDepth) :
    ∃ node, (session.answer (.evaluate env ⟨2⟩)).1 = .ok (.node node) :=
  hsane.evaluate_of_succeeds (hprogram ▸ Program.oneLet_succeeds henv hlevels)

end Sane

end Whence.Session
