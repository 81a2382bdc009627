import Whence.Proofs.Edits.Sessions
import Whence.Proofs.Explanations
import Whence.Proofs.Reevaluation
import Whence.Proofs.Reference.Runs
import Whence.Proofs.Reference.Views

/-!
# Runs with edits

In a run that changes inputs only before it evaluates anything in their revision, each evaluation that
spares what is outdated comes to what the plain language comes to with the inputs of its revision: to
the same value or the same error as in any session that was made with these inputs.  Whenever an
expression is evaluated successfully in the same environment, the same node is returned.
-/

namespace Whence

namespace Store

variable {store final : Store} {address : Address} {node : NodeId}

theorem Step.lookup? (hstep : Step store final) (hlookup : store.lookup? address = some node) :
    final.lookup? address = some node := by
  cases hstep with
  | register other =>
    cases hother : store.lookup? other with
    | some found => rwa [register_of_lookup hother]
    | none =>
      rw [register_of_none hother]
      exact (allot_grows hother).lookup hlookup
  | commit _ => exact hlookup
  | extend _ _ _ => exact hlookup
  | note _ _ => exact hlookup

theorem Steps.lookup? (hsteps : Steps store final) (hlookup : store.lookup? address = some node) :
    final.lookup? address = some node := by
  induction hsteps with
  | refl => exact hlookup
  | tail _ hstep ih => exact hstep.lookup? ih

end Store

namespace Session

open Reference

variable {program : Program} {correct session : Session} {env : EnvId} {expr : ExprId}

/-- An expression that has a node keeps it, whatever is called. -/
theorem lookup?_after {address : Address} {node : NodeId} (calls : List Call)
    (hlookup : session.store.lookup? address = some node) :
    (session.after calls).store.lookup? address = some node := by
  induction calls generalizing session with
  | nil => exact hlookup
  | cons call calls ih =>
    have hkept : (session.answer call).2.store.lookup? address = some node := by
      obtain hspawn | hsteps := answer_store session call
      · rw [hspawn]
        exact hlookup
      · exact hsteps.lookup? hlookup
    exact ih hkept

theorem after_append (earlier later : List Call) :
    session.after (earlier ++ later) = (session.after earlier).after later :=
  List.foldl_append

/-- What the call has to respect: it brings in data and primitives without operands, it changes only
inputs of the session's own and only if the session is untouched, and it evaluates only what spares the
outdated. -/
def Call.Suits (session : Session) (untouched : Bool) : Call → Prop
  | .input value => value.isRaw = true
  | .bind _ _ _ => True
  | .spawn => True
  | .update node value => untouched = true ∧
      (∃ source, session.store.address node = .input source) ∧
      session.store.isLibrary node = false ∧ value.Suits node
  | .evaluate env expr => session.Spares env expr

/-- Whether the session is untouched after the call. -/
def Call.leaves (untouched : Bool) : Call → Bool
  | .spawn => true
  | .evaluate _ _ => false
  | _ => untouched

/-- The run refers only to what exists and edits inputs before it evaluates in their revision, and what
it evaluates spares the outdated.  The flag says whether the session is untouched. -/
def Edits (session : Session) (untouched : Bool) : List Call → Prop
  | [] => True
  | call :: calls => call.Fits session.store ∧ call.Suits session untouched ∧
      (session.answer call).2.Edits (call.leaves untouched) calls

theorem edits_append {untouched : Bool} {earlier later : List Call} :
    session.Edits untouched (earlier ++ later) ↔ session.Edits untouched earlier ∧
      (session.after earlier).Edits (earlier.foldl Call.leaves untouched) later := by
  induction earlier generalizing session untouched with
  | nil => exact ⟨fun hlater ↦ ⟨trivial, hlater⟩, And.right⟩
  | cons call calls ih =>
    rw [List.cons_append, Edits, Edits, ih, and_assoc, and_assoc]
    rfl

/-- A session in which no revision was opened is right about itself. -/
theorem Sane.corrects (hsane : session.Sane) (hraw : session.store.RawInputs) :
    session.Corrects session where
  toParallels := { hsane.mirrors.parallels with
    store := hsane.mirrors.parallels.store.mono History.Shows.bears }
  raw := hraw
  library := rfl

/-- A session is untouched as long as it has only taken in values and bound nodes. -/
theorem Fresh.untouched {machine : Machine} {library : EnvId} (hfresh : Fresh program machine library)
    (settings : Settings) : Untouched ⟨program, settings, machine, {}, library⟩ where
  unwritten node env expr haddress := by
    by_cases hnode : machine.store.Contains node
    · cases (hfresh.opening.inputs hnode).symm.trans haddress
    · exact congrArg (History.held? · machine.store.current) (Store.history_of_not_contains hnode)
  forgotten := by
    change machine.synchronize.memo.outcomes = ∅
    rw [(hfresh.sane settings).consistent.synchronize hfresh.opening.toRooted, hfresh.memo]

/-- Some session is right about this one, which is untouched if the flag says so. -/
structure Corrected (session : Session) (untouched : Bool) : Prop where
  exists_corrects : ∃ correct : Session, correct.Corrects session
  untouched : untouched = true → session.Untouched

theorem new_corrected (hbuilt : program.Built) {settings : Settings}
    (hnew : Session.new program settings = .ok session) :
    session.program = program ∧ session.Corrected true := by
  obtain ⟨machine, library, hfresh⟩ := exists_fresh hbuilt
  cases hnew.symm.trans (hfresh.new_eq settings)
  exact ⟨rfl, ⟨_, (hfresh.sane settings).corrects hfresh.opening.raw⟩,
    fun _ ↦ hfresh.untouched settings⟩

namespace Corrected

variable {untouched : Bool}

/-- What a call of a run keeps. -/
theorem answer (hcorrected : session.Corrected untouched) (hregular : session.program.Regular)
    {call : Call} (hfits : call.Fits session.store) (hsuits : call.Suits session untouched) :
    (session.answer call).2.Corrected (call.leaves untouched) := by
  obtain ⟨⟨correct, hcorrects⟩, huntouched⟩ := hcorrected
  cases call with
  | input value =>
    exact ⟨⟨_, hcorrects.input hfits hsuits hregular⟩, fun hleaves ↦
      (huntouched hleaves).input (hcorrects.stores.named hcorrects.sound.toTidy)⟩
  | bind env name node =>
    exact ⟨⟨_, hcorrects.bind hfits.1 hfits.2 hregular⟩, fun hleaves ↦ (huntouched hleaves).bind⟩
  | spawn => exact ⟨⟨_, hcorrects.spawn⟩, fun _ ↦ hcorrects.untouched_spawn⟩
  | update node value =>
    obtain ⟨hedit, ⟨source, haddress⟩, hlibrary, hvalue⟩ := hsuits
    obtain ⟨hcorrects', huntouched'⟩ :=
      hcorrects.update hregular (huntouched hedit) hfits.1 haddress hlibrary hvalue
    exact ⟨hcorrects', fun _ ↦ huntouched'⟩
  | evaluate env expr =>
    exact ⟨⟨_, ((hcorrects.refreshed hregular).evaluate hregular hfits hsuits).2⟩, nofun⟩

/-- What a run keeps. -/
theorem after (hcorrected : session.Corrected untouched) (hregular : session.program.Regular)
    {calls : List Call} (hedits : session.Edits untouched calls) :
    (session.after calls).Corrected (calls.foldl Call.leaves untouched) := by
  induction calls generalizing session untouched with
  | nil => exact hcorrected
  | cons call calls ih =>
    exact ih (hcorrected.answer hregular hedits.1 hedits.2.1)
      (session.program_answer call ▸ hregular) hedits.2.2

end Corrected

/-! ## Evaluations -/

/-- The evaluations come to nodes that are shown in the same way or to the same error, unless one of
them has given up at a limit. -/
inductive SameOutcome (program : Program) :
    Except Error Answer × Session → Except Error Answer × Session → Prop
  | node {node node' : NodeId} {final final' : Session} :
      View.of final'.store program node' = View.of final.store program node →
      SameOutcome program (.ok (.node node), final) (.ok (.node node'), final')
  | error {error : Error} {final final' : Session} :
      SameOutcome program (.error error, final) (.error error, final')
  | limit {answer answer' : Except Error Answer × Session} {error : Error} :
      (answer.1 = .error error ∨ answer'.1 = .error error) → error.isLimit = true →
      SameOutcome program answer answer'

/-- What is found in the same context is the same. -/
theorem Finds.sameOutcome {context : Context} {answer answer' : Except Error Answer × Session}
    (hfinds : Finds program context expr answer) (hfinds' : Finds program context expr answer') :
    SameOutcome program answer answer' := by
  obtain ⟨result, final⟩ := answer
  obtain ⟨result', final'⟩ := answer'
  obtain ⟨node, datum, rfl, hinlines, heval⟩ | ⟨error, rfl, hlimit | heval⟩ := hfinds
  · obtain ⟨node', datum', rfl, hinlines', heval'⟩ | ⟨error', rfl, hlimit' | heval'⟩ := hfinds'
    · cases heval.symm.trans heval'
      exact .node (hinlines.view_eq program hinlines')
    · exact .limit (.inr rfl) hlimit'
    · cases heval.symm.trans heval'
  · exact .limit (.inl rfl) hlimit
  · obtain ⟨node', datum', rfl, hinlines', heval'⟩ | ⟨error', rfl, hlimit' | heval'⟩ := hfinds'
    · cases heval.symm.trans heval'
    · exact .limit (.inr rfl) hlimit'
    · cases heval.symm.trans heval'
      exact .error

namespace Corrects

variable (hcorrects : correct.Corrects session) (hregular : session.program.Regular)
  (hspares : session.Spares env expr)
include hcorrects

theorem exists_envMeans (henv : session.store.envs.Contains env) :
    ∃ context, EnvMeans correct.store env context ∧ EnvMeans session.store env context := by
  obtain ⟨context, hmeans⟩ := Reference.exists_envMeans hcorrects.sound.toTidy hcorrects.raw
    (hcorrects.store.alike.envs ▸ henv)
  exact ⟨context, hmeans, hmeans.grow hcorrects.stores.grows⟩

include hregular hspares

theorem evaluate_means {context : Context} (hmeans : EnvMeans session.store env context) :
    Finds session.program context expr (session.answer (.evaluate env expr)) := by
  have hrefreshed := hcorrects.refreshed hregular
  obtain ⟨hsame, hfinal⟩ := hrefreshed.evaluate hregular hmeans.contains hspares
  obtain ⟨context', hmeans', hgrown⟩ := hrefreshed.exists_envMeans hmeans.contains
  obtain rfl := hgrown.chain.unique hmeans.chain
  have hregular' : session.refreshed.program.Regular := hregular
  obtain ⟨node, datum, hnode, hinlines, heval⟩ | ⟨error, herror, hfails⟩ :=
    hrefreshed.sane.evaluate_means hregular' hmeans' expr
  · exact .inl ⟨node, datum, hsame.trans hnode, hinlines.grow hfinal.stores.grows, heval⟩
  · exact .inr ⟨error, hsame.trans herror, hfails⟩

/-- A node that is returned is that of the expression. -/
theorem lookup?_evaluate (henv : session.store.envs.Contains env) {node : NodeId}
    (hanswer : (session.answer (.evaluate env expr)).1 = .ok (.node node)) :
    (session.answer (.evaluate env expr)).2.store.lookup? (.evaluation env expr) = some node := by
  have hrefreshed := hcorrects.refreshed hregular
  obtain ⟨hsame, hfinal⟩ := hrefreshed.evaluate hregular henv hspares
  have hregular' : session.refreshed.program.Regular := hregular
  rw [hfinal.store.alike.lookup?]
  obtain ⟨-, -, -, hresult⟩ :=
    hrefreshed.sane.evaluate hregular' (hrefreshed.store.alike.envs ▸ henv) expr
  obtain ⟨node', hnode, outcome, ⟨hreached, -⟩, rfl⟩ | ⟨error, herror, -⟩ := hresult
  · cases hanswer.symm.trans (hsame.trans hnode)
    exact hreached.lookup
  · cases hanswer.symm.trans (hsame.trans herror)

end Corrects

/-- A session that knows nothing outdated spares it. -/
theorem Sane.spares (hsane : session.Sane) : session.Spares env expr := by
  have hnone {node : NodeId} {old : Knowledge} :
      session.store.outdated? session.program node ≠ some old := by
    intro hold
    obtain ⟨hfails, hknown⟩ := Store.outdated?_eq_some.1 hold
    obtain ⟨_, _, rfl⟩ := hsane.sound.full hknown
    exact hfails (hsane.sound.holds (Store.value?_of_knowledge hknown))
  exact ⟨fun hold _ ↦ (hnone hold).elim, fun hold _ _ ↦ (hnone hold).elim⟩

/-- A name that is bound to a value without parts is explained by the node that it is bound to, if
nobody holds what is outdated, and if what is outdated at the name's own node does not agree with what
is right there. -/
theorem Corrects.evaluate_var (hcorrects : correct.Corrects session)
    (hregular : session.program.Regular) (henv : session.store.envs.Contains env) {symbol : Symbol}
    (hexpr : session.program.expr expr = .var symbol) {source : NodeId} {explanation : Explanation}
    {value : Value} (hbinding : session.store.envs.get? env symbol = some (.node source))
    (hholds : Holds session.program session.store source)
    (hknown : session.store.knowledge? source = some (.of explanation value))
    (hparts : value.parts = [])
    (hdepth : 0 < session.settings.maxDepth)
    (hhidden : ∀ {node old}, session.store.outdated? session.program node = some old →
      ¬session.store.Exposes node)
    (hdistinct : ∀ {node old merged}, session.store.outdated? session.program node = some old →
      merge old (.of (.lookup symbol source) value) ≠ .ok merged) :
    session.Spares env expr ∧ ∃ node, (session.answer (.evaluate env expr)).1 = .ok (.node node) ∧
      (session.answer (.evaluate env expr)).2.store.value? node = some value := by
  have hrefreshed := hcorrects.refreshed hregular
  have hregular' : session.refreshed.program.Regular := hregular
  have hvalue : session.refreshed.store.value? source = some value :=
    Store.value?_of_knowledge (Store.knowledge?_upToDate_eq_some.2 ⟨hholds, hknown⟩)
  obtain ⟨node, hanswer, hnotes, haddress, hknowledge⟩ := hrefreshed.sane.evaluate_var hregular'
    henv hexpr hbinding hvalue hparts hdepth
  obtain ⟨hsane, hcontinues, -⟩ := hrefreshed.sane.evaluate hregular' henv expr
  have hlookup := hsane.sound.lookup_address (Store.contains_of_knowledge hknowledge)
  rw [haddress] at hlookup
  have hspares : session.Spares env expr := by
    refine ⟨fun hold hexposes ↦ absurd ?_ (hhidden hold), fun {other _ _ _} hold hnew hmerge ↦ ?_⟩
    · have hbefore := hexposes.of_others hnotes.envs (Store.value?_of_knowledge hknowledge) hparts
        (hnotes.others_of_lookup hlookup)
      exact hbefore.grow (Store.upToDate_grows _ _)
    · by_cases hsame : other = node
      · rw [hsame, hknowledge] at hnew
        cases hnew
        exact absurd hmerge (hdistinct hold)
      · rw [hnotes.others_of_lookup hlookup hsame] at hnew
        exact absurd (Store.knowledge?_upToDate_eq_some.1 hnew).1 (Store.outdated?_eq_some.1 hold).1
  obtain ⟨hsame, hfinal⟩ := hrefreshed.evaluate hregular henv hspares
  exact ⟨hspares, node, hsame.trans hanswer,
    hfinal.stores.grows.value (Store.value?_of_knowledge hknowledge)⟩

/-- Whenever an expression is evaluated again in the same environment, the same node is returned. -/
theorem Corrected.node_eq {untouched : Bool} (hcorrected : session.Corrected untouched)
    (hregular : session.program.Regular) {calls : List Call}
    (hedits : session.Edits untouched (.evaluate env expr :: calls ++ [.evaluate env expr]))
    {node node' : NodeId} (hfirst : (session.answer (.evaluate env expr)).1 = .ok (.node node))
    (hagain : ((session.after (.evaluate env expr :: calls)).answer (.evaluate env expr)).1 =
      .ok (.node node')) : node' = node := by
  obtain ⟨hrun, henv, hspares, -⟩ := edits_append.1 hedits
  obtain ⟨⟨_, hcorrects'⟩, -⟩ := hcorrected.after hregular hrun
  obtain ⟨⟨_, hcorrects⟩, -⟩ := hcorrected
  have hlookup := hcorrects.lookup?_evaluate hregular hrun.2.1 hrun.1 hfirst
  have hlookup' :=
    hcorrects'.lookup?_evaluate ((session.program_after _).symm ▸ hregular) hspares henv hagain
  have hkept := lookup?_after [.evaluate env expr] (lookup?_after calls hlookup)
  exact Option.some.inj (hlookup'.symm.trans hkept)

/-- Evaluation after edits is evaluation from scratch, as long as nothing outdated is in its way.  A new
session takes in values, binds nodes, evaluates expressions, opens revisions and changes inputs, each
input before anything is evaluated in its revision, and each evaluation spares what is outdated.  Then
an environment stands for exactly one context of the plain language, in which inputs have the values of
the current revision.  An evaluation in it comes to what the interpreter finds there, and so to what
any other session without edits comes to where an environment stands for the same context.  It returns
the node that each earlier evaluation of the same expression in the same environment has returned. -/
theorem evaluate_edited (hbuilt : program.Built) (hliteral : program.Literal) (settings : Settings)
    (hnew : Session.new program settings = .ok session) {calls : List Call}
    (hedits : session.Edits true (calls ++ [.evaluate env expr])) :
    ∃ context, (∀ other, EnvMeans (session.after calls).store env other ↔ other = context) ∧
      Finds program context expr ((session.after calls).answer (.evaluate env expr)) ∧
      (∀ (settings' : Settings) (fresh : Session) (calls' : List Call) (env' : EnvId),
        Session.new program settings' = .ok fresh → (∀ call ∈ calls', call.isPlain = true) →
        fresh.Admits calls' → EnvMeans (fresh.after calls').store env' context →
        SameOutcome program ((fresh.after calls').answer (.evaluate env' expr))
          ((session.after calls).answer (.evaluate env expr))) ∧
      ∀ earlier later node node', calls = earlier ++ .evaluate env expr :: later →
        ((session.after earlier).answer (.evaluate env expr)).1 = .ok (.node node) →
        ((session.after calls).answer (.evaluate env expr)).1 = .ok (.node node') → node' = node := by
  obtain ⟨rfl, hcorrected⟩ := new_corrected hbuilt hnew
  have hregular := hbuilt.regular hliteral
  obtain ⟨hrun, henv, hspares, -⟩ := edits_append.1 hedits
  obtain ⟨⟨correct, hcorrects⟩, -⟩ := hcorrected.after hregular hrun
  obtain ⟨context, -, hmeans⟩ := hcorrects.exists_envMeans henv
  have hprogram := session.program_after calls
  have hfinds := hcorrects.evaluate_means (hprogram ▸ hregular) hspares hmeans
  rw [hprogram] at hfinds
  refine ⟨context, fun other ↦ ⟨fun hother ↦ hmeans.chain.unique hother.chain, ?_⟩, hfinds, ?_, ?_⟩
  · rintro rfl
    exact hmeans
  · intro settings' fresh calls' env' hnew' hplain hadmits hmeans'
    exact (finds_after hbuilt hliteral hnew' hplain hadmits hmeans' expr).sameOutcome hfinds
  · rintro earlier later node node' rfl hfirst hagain
    rw [List.append_assoc] at hedits
    obtain ⟨hearlier, hlater⟩ := edits_append.1 hedits
    rw [after_append] at hagain
    exact (hcorrected.after hregular hearlier).node_eq
      ((session.program_after earlier).symm ▸ hregular) hlater hfirst hagain

/-! ## A name whose input is changed -/

theorem Knowledge.text_eq_of_merge {explanation explanation' : Explanation} {text text' : String}
    {merged : Knowledge} (hmerge : merge (.of explanation (.text text))
      (.of explanation' (.text text')) = .ok merged) : text = text' := by
  obtain ⟨held, hheld, hbelow⟩ := Merge.below_some_iff.1 (below_left hmerge).2
  obtain ⟨held', hheld', hbelow'⟩ := Merge.below_some_iff.1 (below_right hmerge).2
  cases hheld.symm.trans hheld'
  cases hbelow
  cases hbelow'
  rfl

/-- Takes in a text, binds and evaluates a name, and changes the text in another revision. -/
def editing (library : EnvId) (source : NodeId) (env : EnvId) : List Call :=
  [.input (.text "old"), .bind library "x" source, .evaluate env ⟨0⟩, .spawn,
    .update source (.text "new")]

theorem editing_eq (library : EnvId) (source : NodeId) (env : EnvId) :
    editing library source env = [.input (.text "old"), .bind library "x" source] ++
      [.evaluate env ⟨0⟩, .spawn, .update source (.text "new")] :=
  rfl

/-- After the text that the name was found to have has been changed, only the name still has the old
text.  Everything else that is known or held by somebody is an input. -/
structure EditsName (program : Program) (session edited : Session) (source : NodeId) (env : EnvId)
    (symbol : Symbol) (node : NodeId) : Prop where
  after_eq : session.after (editing session.library source env) = edited
  edits : session.Edits true (editing session.library source env)
  corrected : edited.Corrected true
  program_eq : edited.program = program
  settings_eq : edited.settings = {}
  contains : edited.store.envs.Contains env
  get? : edited.store.envs.get? env symbol = some (.node source)
  address : edited.store.address source = .input source
  new : edited.store.knowledge? source = some (.of .given (.text "new"))
  lookup : edited.store.lookup? (.evaluation env ⟨0⟩) = some node
  old : edited.store.knowledge? node = some (.of (.lookup symbol source) (.text "old"))
  known : ∀ {other knowledge}, edited.store.knowledge? other = some knowledge → other ≠ node →
    edited.store.address other = .input other
  exposed : ∀ {other}, edited.store.Exposes other → edited.store.address other = .input other

namespace BindsName

variable {bound : Session} {source : NodeId} {symbol : Symbol}
  (hbinds : BindsName program session bound "old" source env symbol)
include hbinds

theorem edits : session.Edits true (editing session.library source env) := by
  obtain ⟨hsane, hcontinues, -⟩ :=
    hbinds.sane.evaluate (hbinds.program_eq ▸ hbinds.regular) hbinds.contains ⟨0⟩
  have hknown := hcontinues.grows.knowledge hbinds.knowledge
  have hcontains := Store.contains_of_knowledge hknown
  have haddress := hbinds.inputs (Store.contains_of_knowledge hbinds.knowledge)
  rw [← hcontinues.grows.address_eq (Store.contains_of_knowledge hbinds.knowledge)] at haddress
  obtain ⟨hinput, hbind, -⟩ := hbinds.admits
  rw [editing_eq]
  refine edits_append.2 ⟨⟨hinput, rfl, hbind, trivial, trivial⟩, ?_⟩
  rw [hbinds.after_eq]
  exact ⟨hbinds.contains, hbinds.sane.spares, trivial, trivial, ⟨hcontains, trivial⟩,
    ⟨rfl, ⟨source, haddress⟩, hsane.sound.isLibrary_of_text hknown, rfl, nofun⟩, trivial⟩

theorem editsName (hbuilt : program.Built) :
    ∃ edited node, EditsName program session edited source env symbol node := by
  obtain ⟨node, -, hnotes, haddress, hknowledge⟩ := hbinds.evaluate
  obtain ⟨hsane, hcontinues, -⟩ :=
    hbinds.sane.evaluate (hbinds.program_eq ▸ hbinds.regular) hbinds.contains ⟨0⟩
  have hlookup := hsane.sound.lookup_address (Store.contains_of_knowledge hknowledge)
  rw [haddress] at hlookup
  obtain ⟨store, hupdate, halike, hnew, hothers⟩ := hsane.sound.toRooted.update_spawn
    (hcontinues.grows.knowledge hbinds.knowledge) (.text "new") rfl
  have hafter : session.after (editing session.library source env) =
      bound.after [.evaluate env ⟨0⟩, .spawn, .update source (.text "new")] := by
    rw [editing_eq, after_append, hbinds.after_eq]
  have hstore : (session.after (editing session.library source env)).store = store := by
    rw [hafter]
    simp only [after, List.foldl_cons, List.foldl_nil]
    rw [answer_update, Machine.perform_ok hupdate]
    rfl
  have hprogram := session.program_after (editing session.library source env)
  have hsettings : (session.after (editing session.library source env)).settings = {} := by
    rw [hafter, settings_after, hbinds.settings_eq]
  obtain ⟨hsession, hcorrected⟩ := new_corrected hbuilt hbinds.new_eq
  have hcorrected' := hcorrected.after (hsession.symm ▸ hbinds.regular) hbinds.edits
  generalize hedited : session.after (editing session.library source env) = edited at *
  obtain rfl := hstore
  have hinput {other : NodeId} (hother : bound.store.Contains other) :
      edited.store.address other = .input other := by
    rw [halike.address, hcontinues.grows.address_eq hother, hbinds.inputs hother]
  have hsource := hinput (Store.contains_of_knowledge hbinds.knowledge)
  have hnode : node ≠ source := by
    rintro rfl
    cases hsource.symm.trans ((halike.address node).trans haddress)
  have henvs := halike.envs.trans hnotes.envs
  refine ⟨edited, node, {
    after_eq := hedited
    edits := hbinds.edits
    corrected := hcorrected'
    program_eq := hprogram.trans hsession
    settings_eq := hsettings
    contains := henvs ▸ hbinds.contains
    get? := henvs ▸ hbinds.get?
    address := hsource
    new := hnew
    lookup := (halike.lookup? _).trans hlookup
    old := (hothers hnode).trans hknowledge
    known := fun {other knowledge} hknown hother ↦ ?_
    exposed := fun hexposes ↦ ?_ }⟩
  · by_cases hsame : other = source
    · rw [hsame, hsource]
    · rw [hothers hsame, hnotes.others_of_lookup hlookup hother] at hknown
      exact hinput (Store.contains_of_knowledge hknown)
  · have hbefore := hexposes.of_others halike.envs (Store.value?_of_knowledge hnew) rfl hothers
    exact hinput ((hbefore.of_others hnotes.envs (Store.value?_of_knowledge hknowledge) rfl
      (hnotes.others_of_lookup hlookup)).contains hbinds.sane.sound.toTidy)

end BindsName

namespace EditsName

variable {edited : Session} {source node : NodeId} {symbol : Symbol}
  (hedits : EditsName program session edited source env symbol node)
include hedits

/-- Nothing but the name is outdated, and nobody holds it. -/
theorem outdated {other : NodeId} {old : Knowledge}
    (hold : edited.store.outdated? edited.program other = some old) :
    old = .of (.lookup symbol source) (.text "old") ∧ ¬edited.store.Exposes other := by
  obtain ⟨hfails, hknown⟩ := Store.outdated?_eq_some.1 hold
  have hinput : edited.store.address other ≠ .input other := fun haddress ↦
    hfails (.input (Store.contains_of_knowledge hknown) haddress)
  obtain rfl : other = node := by
    by_contra hother
    exact hinput (hedits.known hknown hother)
  cases hknown.symm.trans hedits.old
  exact ⟨rfl, fun hexposes ↦ hinput (hedits.exposed hexposes)⟩

/-- The name itself is evaluated to the new text. -/
theorem evaluate (hregular : program.Regular) (hexpr : program.expr ⟨0⟩ = .var symbol) :
    edited.Spares env ⟨0⟩ ∧ ∃ node, (edited.answer (.evaluate env ⟨0⟩)).1 = .ok (.node node) ∧
      (edited.answer (.evaluate env ⟨0⟩)).2.store.value? node = some (.text "new") := by
  obtain ⟨⟨correct, hcorrects⟩, -⟩ := hedits.corrected
  rw [← hedits.program_eq] at hregular hexpr
  refine hcorrects.evaluate_var hregular hedits.contains hexpr hedits.get?
    (.input (Store.contains_of_knowledge hedits.new) hedits.address) hedits.new rfl
    (hedits.settings_eq ▸ Nat.zero_lt_succ _) (fun hold ↦ (hedits.outdated hold).2)
    fun hold hmerge ↦ ?_
  obtain ⟨rfl, -⟩ := hedits.outdated hold
  exact absurd (Knowledge.text_eq_of_merge hmerge) (by decide)

end EditsName

/-- A name finds the old text of its input and, after the input has been changed, the new one, at the
same node. -/
theorem evaluate_edited_oneName : ∃ session edited source env node first final context,
    Session.new .oneName {} = .ok session ∧ session.Binds "old" source env ∧
    (session.after [.input (.text "old"), .bind session.library "x" source]).answer
      (.evaluate env ⟨0⟩) = (.ok (.node node), first) ∧
    first.store.value? node = some (.text "old") ∧
    session.after (editing session.library source env) = edited ∧
    edited.answer (.evaluate env ⟨0⟩) = (.ok (.node node), final) ∧
    final.store.value? node = some (.text "new") ∧
    EnvMeans edited.store env context ∧ Finds .oneName context ⟨0⟩ (.ok (.node node), final) := by
  have hbuilt := Program.oneName_built
  obtain ⟨symbol, hsymbol, hexprs⟩ := Program.oneName_spec
  obtain ⟨session, bound, source, env, hbinds⟩ := exists_bindsName hbuilt Program.oneName_literal
    hsymbol (by rw [hexprs]; rfl) "old"
  obtain ⟨node, hnode, -, -, hknowledge⟩ := hbinds.evaluate
  obtain ⟨edited, name, hedits⟩ := hbinds.editsName hbuilt
  obtain ⟨hspares, node', hanswer, hvalue⟩ := hedits.evaluate hbinds.regular hbinds.expr
  have hlast : (session.after (editing session.library source env)).Edits
      ((editing session.library source env).foldl Call.leaves true) [.evaluate env ⟨0⟩] := by
    rw [hedits.after_eq]
    exact ⟨hedits.contains, hspares, trivial⟩
  obtain ⟨context, hmeans, hfinds, -, hsame⟩ := evaluate_edited hbuilt Program.oneName_literal {}
    hbinds.new_eq (edits_append.2 ⟨hedits.edits, hlast⟩)
  rw [hedits.after_eq] at hmeans hfinds hsame
  obtain rfl := hsame [.input (.text "old"), .bind session.library "x" source]
    [.spawn, .update source (.text "new")] node node' rfl (by rw [hbinds.after_eq, hnode]) hanswer
  have hfirst : bound.answer (.evaluate env ⟨0⟩) = (.ok (.node node'), _) := Prod.ext hnode rfl
  have hfinal : edited.answer (.evaluate env ⟨0⟩) = (.ok (.node node'), _) := Prod.ext hanswer rfl
  rw [hfinal] at hfinds
  exact ⟨session, edited, source, env, node', _, _, context, hbinds.new_eq, hbinds.binds,
    hbinds.after_eq.symm ▸ hfirst, Store.value?_of_knowledge hknowledge, hedits.after_eq, hfinal,
    hvalue, (hmeans context).2 rfl, hfinds⟩

end Session

end Whence
