import Whence.Proofs.Reference.Failures
import Whence.Proofs.Sessions

/-!
# Sessions agree with the plain language

Whatever a session has taken in, bound and evaluated before, an evaluation comes to what the
interpreter comes to in the context that the environment stands for: to the same value, put together
from the nodes that hold its parts, or to the same error.
-/

namespace Whence.Session

open Reference

variable {program : Program} {session : Session}

/-- The call brings in data and primitives at most. -/
def Call.isRaw : Call → Bool
  | .input value => value.isRaw
  | _ => true

theorem Sane.rawInputs_after (hregular : session.program.Regular) (hsane : session.Sane)
    {calls : List Call} (hplain : ∀ call ∈ calls, call.isPlain = true)
    (hcalls : ∀ call ∈ calls, call.isRaw = true) (hadmits : session.Admits calls)
    (hraw : session.store.RawInputs) : (session.after calls).store.RawInputs := by
  refine hsane.inputsSatisfy_after hregular hplain (fun call hcall ↦ ?_) hadmits hraw
  have hisRaw := hcalls call hcall
  cases call with
  | input value => exact hisRaw
  | _ => trivial

/-- The answer is what the interpreter finds in the context, unless evaluation has given up at a
limit. -/
def Finds (program : Program) (context : Context) (expr : ExprId)
    (answer : Except Error Answer × Session) : Prop :=
  (∃ node datum, answer.1 = .ok (.node node) ∧ Inlines answer.2.store node datum ∧
    eval program context expr .everything = pure ⟨.given datum, [], .done⟩) ∨
  ∃ error, answer.1 = .error error ∧ (error.isLimit = true ∨
    eval program context expr .everything = throw error)

/-- What an evaluation comes to in the plain language. -/
theorem Sane.evaluate_means (hregular : session.program.Regular) (hsane : session.Sane)
    {env : EnvId} {context : Context} (hmeans : EnvMeans session.store env context) (expr : ExprId) :
    Finds session.program context expr (session.answer (.evaluate env expr)) := by
  obtain ⟨hsane', hcontinues, -, hresult⟩ := hsane.evaluate hregular hmeans.contains expr
  have htidy : Tidy session.program (session.answer (.evaluate env expr)).2.store :=
    hcontinues.program ▸ hsane'.sound.toTidy
  have hmeans' := hmeans.grow hcontinues.grows
  obtain ⟨node, hanswer, outcome, ⟨hreached, -⟩, rfl⟩ | ⟨error, hanswer, hlimit | hfails⟩ := hresult
  · obtain ⟨datum, hinlines, hforce⟩ := yields_of_forced hregular
      (fun node _ ↦ agrees hregular htidy node) (hreached.settled.forced hregular.everything)
      (hmeans'.node htidy hreached.lookup)
    exact .inl ⟨_, datum, hanswer, hinlines, matchThunk_delayed.symm.trans (hforce hregular.everything)⟩
  · exact .inr ⟨error, hanswer, .inl hlimit⟩
  · exact .inr ⟨error, hanswer, .inr (failsAlike hregular htidy hfails hmeans'.chain)⟩

/-- A new session in which no input was changed finds what the interpreter finds. -/
theorem finds_after (hbuilt : program.Built) (hliteral : program.Literal) {settings : Settings}
    (hnew : Session.new program settings = .ok session) {calls : List Call}
    (hplain : ∀ call ∈ calls, call.isPlain = true) (hadmits : session.Admits calls) {env : EnvId}
    {context : Context} (hmeans : EnvMeans (session.after calls).store env context) (expr : ExprId) :
    Finds program context expr ((session.after calls).answer (.evaluate env expr)) := by
  obtain ⟨session', hnew', hsane, rfl, -⟩ := exists_new hbuilt settings
  cases hnew.symm.trans hnew'
  have hregular := hbuilt.regular hliteral
  have hsane' := (hsane.after hregular hplain hadmits).1
  have hprogram := session.program_after calls
  have hfinds := hsane'.evaluate_means (hprogram ▸ hregular) hmeans expr
  rwa [hprogram] at hfinds

/-- Evaluation implements the plain lazy language.  After any run of a new session that takes in
data, binds nodes and evaluates expressions, an environment stands for exactly one context.  An
evaluation in it that does not give up at a limit succeeds exactly if the interpreter finds a value
in that context, and the value of its node with all parts in place is the one found; otherwise it
fails with the error of the interpreter. -/
theorem evaluate_agrees (hbuilt : program.Built) (hliteral : program.Literal) (settings : Settings)
    (hnew : Session.new program settings = .ok session) {calls : List Call}
    (hplain : ∀ call ∈ calls, call.isPlain = true) (hraw : ∀ call ∈ calls, call.isRaw = true)
    (hadmits : session.Admits calls) {env : EnvId}
    (henv : (session.after calls).store.envs.Contains env) (expr : ExprId) :
    ∃ context, (∀ other, EnvMeans (session.after calls).store env other ↔ other = context) ∧
      match (session.after calls).answer (.evaluate env expr) with
      | (.ok result, final) => ∃ node datum, result = .node node ∧
          (∀ other, Inlines final.store node other ↔ other = datum) ∧
          Reference.eval program context expr .everything = pure ⟨.given datum, [], .done⟩
      | (.error error, _) => error.isLimit = true ∨
          Reference.eval program context expr .everything = throw error := by
  obtain ⟨machine, library, hfresh⟩ := exists_fresh hbuilt
  rw [hfresh.new_eq] at hnew
  cases hnew
  have hregular := hbuilt.regular hliteral
  obtain ⟨hsane, hcontinues⟩ := (hfresh.sane settings).after hregular hplain hadmits
  have hinputs := (hfresh.sane settings).rawInputs_after hregular hplain hraw hadmits hfresh.opening.raw
  have hprogram := hcontinues.program
  generalize (Session.after _ calls) = session at hsane hinputs henv hprogram ⊢
  change session.program = program at hprogram
  subst hprogram
  obtain ⟨context, hmeans⟩ := exists_envMeans hsane.sound.toTidy hinputs henv
  refine ⟨context, fun other ↦ ⟨fun hother ↦ hmeans.chain.unique hother.chain, ?_⟩, ?_⟩
  · rintro rfl
    exact hmeans
  · have hevaluate := hsane.evaluate_means hregular hmeans expr
    generalize session.answer (.evaluate env expr) = answer at hevaluate ⊢
    obtain ⟨result, final⟩ := answer
    obtain ⟨node, datum, rfl, hinlines, heval⟩ | ⟨error, rfl, hfails⟩ := hevaluate
    · refine ⟨node, datum, rfl, fun other ↦ ⟨hinlines.unique, ?_⟩, heval⟩
      rintro rfl
      exact hinlines
    · exact hfails

/-- The text of the definition is found by both, after another text has been taken in and the bare name
has been looked for in vain. -/
theorem evaluate_agrees_oneLet : ∃ session calls context node final datum,
    Session.new .oneLet {} = .ok session ∧
    calls = [.input (.text "more"), .evaluate session.library ⟨1⟩] ∧
    EnvMeans (session.after calls).store session.library context ∧
    (session.after calls).answer (.evaluate session.library ⟨2⟩) = (.ok (.node node), final) ∧
    Inlines final.store node datum ∧
    Reference.eval .oneLet context ⟨2⟩ .everything = pure ⟨.given datum, [], .done⟩ := by
  obtain ⟨session, hnew, hsane, hprogram, hsettings⟩ := exists_new Program.oneLet_built {}
  have hregular : session.program.Regular := hprogram ▸ Program.oneLet_regular
  obtain ⟨calls, hcalls⟩ :
    ∃ calls, calls = [Call.input (.text "more"), .evaluate session.library ⟨1⟩] := ⟨_, rfl⟩
  have hplain : ∀ call ∈ calls, call.isPlain = true := by simp [hcalls, Call.isPlain]
  have hraw : ∀ call ∈ calls, call.isRaw = true := by simp [hcalls, Call.isRaw, Value.isRaw]
  have hadmits : session.Admits calls := by
    obtain ⟨node, first, hfirst, -, hcontinues, -⟩ := hsane.input (.text "more") trivial
    rw [hcalls]
    refine ⟨trivial, ?_⟩
    rw [hfirst]
    exact ⟨hcontinues.grows.envs.contains hsane.library, trivial⟩
  obtain ⟨hsane', hcontinues⟩ := hsane.after hregular hplain hadmits
  have hlibrary := hcontinues.grows.envs.contains hsane.library
  obtain ⟨node, hnode⟩ := hsane'.evaluate_oneLet (hcontinues.program.trans hprogram) hlibrary
    (by rw [hcontinues.settings, hsettings]; decide)
  obtain ⟨context, hcontext, hresult⟩ := evaluate_agrees Program.oneLet_built
    Program.oneLet_literal {} hnew hplain hraw hadmits hlibrary ⟨2⟩
  have hanswer : (session.after calls).answer (.evaluate session.library ⟨2⟩) =
      (.ok (.node node), _) := Prod.ext hnode rfl
  rw [hanswer] at hresult
  obtain ⟨node', datum, hsame, hinlines, heval⟩ := hresult
  cases hsame
  exact ⟨session, calls, context, node, _, datum, hnew, hcalls, (hcontext context).2 rfl,
    hanswer, (hinlines datum).2 rfl, heval⟩

end Whence.Session
