import Whence.Proofs.Descent
import Whence.Proofs.Reasons
import Whence.Proofs.Sessions

/-!
# Sessions of orderly programs fail for reasons of the program

The program must not declare a constructor again with another arity, and what is taken in must be
data with as many parts as the constructors are declared with.  Then no evaluation comes upon a
conflict between two writes, an operand of the wrong kind, a node that cannot be evaluated, an
unknown constructor or one with arguments missing, or a pattern without a body.  It may still give up
at its limits: too deep in evaluations, or in a value that contains itself and has no bottom to be
forced to.
-/

namespace Whence

variable {program : Program} {store : Store} {env : EnvId} {expr : ExprId}

/-- The value is a number, a text, or a constructor with all its arguments. -/
def Value.IsData (program : Program) : Value → Prop
  | .number _ | .text _ => True
  | .constructor tag args => program.arity? tag = some args.length
  | .closure _ | .primitive _ => False

theorem Value.IsData.fitting {value : Value} (hdata : value.IsData program) :
    value.Fitting program := by
  cases value with
  | number _ | text _ => trivial
  | constructor tag args => exact hdata
  | closure _ | primitive _ => exact hdata.elim

theorem Value.IsLibrary.fitting {value : Value} (hlibrary : value.IsLibrary) :
    value.Fitting program := by
  obtain ⟨primitive, rfl⟩ := hlibrary
  cases primitive <;> trivial

namespace Session

variable {session final : Session} {error : Error}

theorem evaluate_of_answer (hfails : session.answer (.evaluate env expr) = (.error error, final)) :
    Evaluation.evaluate session.program session.settings env expr session.machine =
      .error error final.machine := by
  rw [answer_evaluate] at hfails
  cases hrun : Evaluation.evaluate session.program session.settings env expr session.machine with
  | ok node machine =>
    rw [hrun] at hfails
    cases hfails
  | error error' machine =>
    rw [hrun] at hfails
    cases hfails
    rfl

/-- The error is one of the program, or evaluation has given up at one of its limits: the nesting of
evaluations, or the descent into a value.  A descent is given up only if a value contains itself or
the evaluation has made as many nodes as `reach` allows for. -/
def FailsProperly (session final : Session) (error : Error) : Prop :=
  error.IsOwn ∨ (∃ limit, error = .depthExceeded limit) ∨
    (∃ bottom, error = .bottomless bottom) ∧
      (final.store.IsCyclic ∨ session.store.size + session.settings.reach ≤ final.store.size)

theorem Sane.failsProperly (hregular : session.program.Regular) (horderly : session.program.Orderly)
    (hsane : session.Sane)
    (hinputs : session.store.InputsSatisfy (Value.Fitting session.program))
    (henv : session.store.envs.Contains env)
    (hfails : session.answer (.evaluate env expr) = (.error error, final)) :
    session.FailsProperly final error := by
  obtain ⟨hsane', hcontinues, hkeeps, hresult⟩ := hsane.evaluate hregular henv expr
  rw [hfails] at hsane' hcontinues hkeeps hresult
  obtain ⟨node, hanswer, -⟩ | ⟨error', hanswer, hlimit | hreason⟩ := hresult
  · cases hanswer
  · cases hanswer
    cases error with
    | depthExceeded limit => exact .inr (.inl ⟨limit, rfl⟩)
    | bottomless bottom =>
      exact .inr (.inr ⟨⟨bottom, rfl⟩, Evaluation.evaluate_bottomless hsane.sound.revisions
        (evaluate_of_answer hfails)⟩)
    | _ => cases hlimit
  · cases hanswer
    left
    have htidy : Tidy session.program final.store := hcontinues.program ▸ hsane'.sound.toTidy
    have hinputs' := hsane.sound.toTidy.inputsSatisfy hcontinues.grows hkeeps hinputs
    refine Fails.isOwn hregular horderly (fun node value hvalue ↦ ?_) hreason
      (Program.guards_of_next? (by rw [hregular.everything]; rfl))
    exact (htidy.holds hvalue).proper hregular horderly hinputs' hvalue

/-- Evaluation of an orderly program fails only for reasons that the program itself gives.  After any
run of a new session that takes in data, binds nodes and evaluates expressions, an evaluation that
fails does so because a name is not bound, a value is not as demanded or the program raises an error,
or it gives up at a limit.  What it reports as found in place of what is demanded is never a broken
pattern or a missing value. -/
theorem evaluate_failsProperly (hbuilt : program.SteadilyBuilt) (hliteral : program.Literal)
    (settings : Settings) (hnew : Session.new program settings = .ok session) {calls : List Call}
    (hplain : ∀ call ∈ calls, call.isPlain = true)
    (hdata : ∀ call ∈ calls, call.Brings (Value.IsData program)) (hadmits : session.Admits calls)
    (henv : (session.after calls).store.envs.Contains env)
    (hfails : (session.after calls).answer (.evaluate env expr) = (.error error, final)) :
    (session.after calls).FailsProperly final error := by
  obtain ⟨machine, library, hfresh⟩ := exists_fresh hbuilt.built
  rw [hfresh.new_eq] at hnew
  cases hnew
  have hregular := hbuilt.built.regular hliteral
  obtain ⟨hsane, hcontinues⟩ := (hfresh.sane settings).after hregular hplain hadmits
  have hfitting : ∀ call ∈ calls, call.Brings (Value.Fitting program) := by
    intro call hcall
    have hbrings := hdata call hcall
    cases call with
    | input value => exact Value.IsData.fitting hbrings
    | _ => trivial
  have hinputs := (hfresh.sane settings).inputsSatisfy_after hregular hplain hfitting hadmits
    fun node source value haddress hvalue ↦
      (hfresh.opening.given node source value haddress hvalue).fitting
  have hprogram := hcontinues.program
  generalize (Session.after _ calls) = session at hsane hinputs henv hprogram hfails ⊢
  change session.program = program at hprogram
  subst hprogram
  exact hsane.failsProperly hregular hbuilt.orderly hinputs henv hfails

end Session

/-! ## A text that is called -/

namespace Program

/-- A program that calls a text. -/
def textCall : Program :=
  (Builder.outcome (Builder.Call.app ⟨0⟩ ⟨0⟩).run
    (Builder.outcome (Builder.Call.text "call").run .initial).2).2

theorem textCall_built : textCall.SteadilyBuilt := .call _ (.call _ .initial trivial) trivial

theorem textCall_exprs : textCall.exprs = #[.text "call", .app ⟨0⟩ ⟨0⟩] := by
  change (initial.exprs.push (.text "call")).push (.app ⟨0⟩ ⟨0⟩) = _
  rw [initial_empty.1]
  rfl

theorem textCall_literal : textCall.Literal := by
  apply Literal.of_groups_eq_empty
  exact initial_empty.2

end Program

/-- A call of a text fails, since a function is demanded. -/
theorem Evaluation.nested_textCall (settings : Settings) (hmemoize : settings.memoize = false)
    (hregular : program.Regular) {machine : Machine} (hsound : Sound program machine.store)
    (hconsistent : machine.Consistent program) (henv : machine.store.envs.Contains env)
    {function argument : ExprId} {text : String} (hexpr : program.expr expr = .app function argument)
    (hfunction : program.expr function = .text text) (depth : Nat) :
    ∃ final, nested program settings (depth + 2) env expr .everything machine =
      .error (Matching.mismatch program .function (.text text)) final := by
  have hsynchronized := hconsistent.synchronize hsound.toRooted
  have hrule : Rule program machine.store (fun _ ↦ True) env function (program.expr function) .given
      (.text text) := by
    rw [hfunction]
    exact .text
  obtain ⟨node, final, hwrite, -, -, -, -, hwritten, -⟩ :=
    Does.write (.sharing program rfl) hsound.toTidy henv hrule machine rfl hsound.toTidy hconsistent
  have hmatch : Matching.node program settings.reach (nested program settings depth) node .function
      final = .error (Matching.mismatch program .function (.text text)) final := by
    obtain ⟨steps, hmatch⟩ := Matching.node_of_value settings.reach (nested program settings depth)
      (by rw [hregular.function]; rfl) (Store.value?_of_knowledge hwritten.knowledge)
    rw [hmatch, Matching.value_of_rejects (by rw [hregular.function]; rfl)]
    rfl
  have hcalled : nested program settings (depth + 1) env function .function machine =
      .error (Matching.mismatch program .function (.text text)) final := by
    rw [nested_eq, Machine.memoized_of_off hmemoize _ hsynchronized, unremembered,
      Rules.step_of_not_bind (by rw [hregular.function]; rfl), hfunction]
    simp only [Rules.byForm, Rules.given, bind, EStateM.bind, hwrite, hmatch]
  refine ⟨final, ?_⟩
  rw [nested_eq, Machine.memoized_of_off hmemoize _ hsynchronized, unremembered,
    Rules.step_of_not_bind hregular.isBind_everything, hexpr]
  simp only [Rules.byForm, Rules.apply, bind, EStateM.bind, hcalled]

/-- The call of a text is reported as such, after another text has been taken in. -/
theorem Session.evaluate_failsProperly_textCall : ∃ session calls final,
    Session.new .textCall { memoize := false } = .ok session ∧
    calls = [.input (.text "more")] ∧
    (session.after calls).answer (.evaluate session.library ⟨1⟩) =
      (.error (Matching.mismatch .textCall .function (.text "call")), final) ∧
    (session.after calls).FailsProperly final
      (Matching.mismatch .textCall .function (.text "call")) := by
  obtain ⟨session, hnew, hsane, hprogram, hsettings⟩ :=
    exists_new Program.textCall_built.built { memoize := false }
  have hregular : session.program.Regular :=
    hprogram ▸ Program.textCall_built.built.regular Program.textCall_literal
  obtain ⟨node, first, hfirst, hsane', hcontinues, -⟩ := hsane.input (.text "more") trivial
  have hlibrary := hcontinues.grows.envs.contains hsane.library
  obtain ⟨calls, hcalls⟩ : ∃ calls, calls = [Call.input (.text "more")] := ⟨_, rfl⟩
  have hafter : session.after calls = first := by
    simp only [hcalls, after, List.foldl_cons, List.foldl_nil, hfirst]
  have hplain : ∀ call ∈ calls, call.isPlain = true := by simp [hcalls, Call.isPlain]
  have hdata : ∀ call ∈ calls, call.Brings (Value.IsData .textCall) := by
    simp [hcalls, Call.Brings, Value.IsData]
  have hadmits : session.Admits calls := by
    rw [hcalls]
    exact ⟨trivial, trivial⟩
  have hprogram' : first.program = .textCall := hcontinues.program.trans hprogram
  have hcalling : first.program.expr ⟨1⟩ = .app ⟨0⟩ ⟨0⟩ := by
    rw [Program.expr, hprogram', Program.textCall_exprs]
    rfl
  have hcalled : first.program.expr ⟨0⟩ = .text "call" := by
    rw [Program.expr, hprogram', Program.textCall_exprs]
    rfl
  obtain ⟨final, hnested⟩ := Evaluation.nested_textCall first.settings
    (by rw [hcontinues.settings, hsettings]) (hcontinues.program ▸ hregular) hsane'.sound
    hsane'.consistent hlibrary hcalling hcalled 9998
  have hanswer : first.answer (.evaluate session.library ⟨1⟩) =
      (.error (Matching.mismatch .textCall .function (.text "call")),
        { first with machine := final }) := by
    have hdepth : first.settings.maxDepth = 9998 + 2 := by rw [hcontinues.settings, hsettings]
    rw [← hprogram', answer_evaluate, Evaluation.evaluate, Evaluation.under, hdepth]
    simp only [Bind.bind, EStateM.bind, hnested]
    rfl
  rw [← hafter] at hanswer hlibrary
  exact ⟨session, calls, _, hnew, hcalls, hanswer, evaluate_failsProperly Program.textCall_built
    Program.textCall_literal { memoize := false } hnew hplain hdata hadmits hlibrary hanswer⟩

end Whence
