import Whence.Proofs.Sessions
import Whence.Proofs.Slice.Backward

/-!
# Backward slices and other programs

The backward slice from the result of an evaluation contains every node that the evaluation came to
know and every expression that it looked at.  Replacing other expressions therefore changes neither
the result nor anything in the store.
-/

namespace Whence

variable {program other : Program} {store : Store} {node : NodeId}

/-- A closure was made at a node for its function literal. -/
theorem Holds.closure_source
    (hraw : store.RawInputs) (hholds : Holds program store node) {closure : Closure}
    (hvalue : store.value? node = some (.closure closure)) :
    ∃ source env value, store.address source = .evaluation env closure.function ∧
      store.value? source = some value := by
  induction hholds with
  | input _ haddress => cases hraw _ _ _ haddress hvalue
  | evaluation allowed haddress hknown hrule _ ih =>
    have hknown' := Store.value?_of_knowledge hknown
    rw [hvalue] at hknown'
    cases hknown'
    generalize program.expr _ = form at hrule
    cases hrule with
    | function _ => exact ⟨_, _, _, haddress, hvalue⟩
    | var _ _ hallowed htarget => exact ih _ hallowed htarget
    | op _ _ hallowed htarget => exact ih _ hallowed htarget
    | closure _ _ _ _ _ _ _ _ _ hresult => exact ih _ hresult.allowed hresult.value
    | primitive _ _ _ hcomputes =>
      cases hcomputes with
      | unary happly => cases UnaryOp.apply_flat happly
      | partially _ _ happly => cases BinaryOp.apply_flat happly
    | letIn _ _ _ hresult => exact ih _ hresult.allowed hresult.value
    | letRec _ hresult => exact ih _ hresult.allowed hresult.value
    | matching _ _ _ _ _ hresult => exact ih _ hresult.allowed hresult.value
    | defs _ hresult => exact ih _ hresult.allowed hresult.value

/-- The second program differs from the first one in some of its expressions only. -/
structure Program.DiffersIn (program other : Program) (replaced : ExprId → Prop) : Prop where
  rest : other = { program with exprs := other.exprs }
  exprs : ∀ {expr}, ¬replaced expr → other.expr expr = program.expr expr

namespace Program.DiffersIn

variable {replaced : ExprId → Prop}

theorem symbols_eq (hdiffers : program.DiffersIn other replaced) : other.symbols = program.symbols := by
  rw [hdiffers.rest]

/-- The library is opened in the same way. -/
theorem bindPrimitives_eq (hdiffers : program.DiffersIn other replaced)
    (primitives : List Primitive) (env : EnvId) :
    Evaluation.bindPrimitives other env primitives =
      Evaluation.bindPrimitives program env primitives := by
  induction primitives generalizing env with
  | nil => rfl
  | cons primitive rest ih =>
    simp only [Evaluation.bindPrimitives, Program.symbol?, hdiffers.symbols_eq, ih]

theorem view_eq (hdiffers : program.DiffersIn other replaced) (store : Store) (node : NodeId) :
    View.of store other node = View.of store program node := by
  have hname : other.name = program.name := by
    funext symbol
    rw [Program.name, hdiffers.symbols_eq, Program.name]
  have hinline : ∀ depth enclosing node,
      View.inline store other depth enclosing node = View.inline store program depth enclosing node := by
    intro depth
    induction depth with
    | zero => exact fun _ _ ↦ rfl
    | succ depth ih =>
      intro enclosing node
      simp only [View.inline, hname, funext (ih _)]
  exact hinline _ _ _

end Program.DiffersIn

namespace Session

/-- An expression has been evaluated in a session that was new. -/
structure EvaluatedFirst (program : Program) (settings : Settings) (root : ExprId) (node : NodeId)
    (machine : Machine) (library : EnvId) (final : Machine) : Prop where
  fresh : Fresh program machine library
  evaluate : Evaluation.evaluate program settings library root machine = .ok node final

theorem evaluate_eq {settings : Settings} {machine : Machine} {marks : Marks} {library : EnvId}
    {root : ExprId} :
    Session.evaluate root ⟨program, settings, machine, marks, library⟩ =
      run (Evaluation.evaluate program settings library root)
        ⟨program, settings, machine, marks, library⟩ := rfl

theorem EvaluatedFirst.of_new (hbuilt : program.Built) {settings : Settings}
    {session evaluated : Session} {root : ExprId}
    (hnew : Session.new program settings = .ok session)
    (hevaluate : Session.evaluate root session = .ok node evaluated) :
    ∃ machine library final, EvaluatedFirst program settings root node machine library final ∧
      evaluated = ⟨program, settings, final, {}, library⟩ := by
  obtain ⟨machine, library, hfresh⟩ := exists_fresh hbuilt
  rw [hfresh.new_eq] at hnew
  cases hnew
  rw [evaluate_eq] at hevaluate
  simp only [run] at hevaluate
  split at hevaluate
  · rename_i result final hrun
    cases hevaluate
    exact ⟨machine, library, final, ⟨hfresh, hrun⟩, rfl⟩
  · cases hevaluate

namespace EvaluatedFirst

variable {settings : Settings} {root : ExprId} {machine final : Machine} {library : EnvId}

/-- What the evaluation leaves behind, and how another program follows it. -/
theorem ends (hregular : program.Regular)
    (hfirst : EvaluatedFirst program settings root node machine library final)
    (other : Program) (hother : other = { program with exprs := other.exprs }) :
    Ends program machine.store final ∧
      EvaluatesFully program machine.store library root node final.store ∧
      (program.AgreesOn other final.store →
        Evaluation.evaluate other settings library root machine = .ok node final) := by
  have hsane := hfirst.fresh.sane settings
  have hlibrary : machine.store.envs.Contains library := hsane.library
  obtain ⟨hends, hevaluates, hfollows⟩ :=
    (Tied.evaluate (.sharing other hother) hregular rfl rfl
      (fun depth ↦ Companion.sharing_remembers settings _) hlibrary root machine rfl hsane.sound
      hsane.consistent).1 hfirst.evaluate
  refine ⟨hends, hevaluates, fun hagree ↦ ?_⟩
  obtain ⟨final', hrun, hsame⟩ := hfollows hagree rfl
  rw [show final = final' from hsame]
  exact hrun

/-- Every node that is known by evaluation is new, and the result reaches it. -/
theorem reaches (hregular : program.Regular)
    (hfirst : EvaluatedFirst program settings root node machine library final) {known : NodeId}
    {env : EnvId} {expr : ExprId} {value : Value}
    (haddress : final.store.address known = .evaluation env expr)
    (hvalue : final.store.value? known = some value) : Reaches final.store node known := by
  obtain ⟨hends, ⟨outcome, ⟨-, hcovers⟩, rfl⟩, -⟩ := hfirst.ends hregular program rfl
  have hnew : New machine.store final.store known := by
    refine ⟨⟨env, expr, haddress⟩, ⟨value, hvalue⟩, ?_⟩
    cases hold : machine.store.value? known with
    | none => rfl
    | some value =>
      have hcontains := Store.contains_of_value hold
      rw [hends.grows.address_eq hcontains, hfirst.fresh.opening.inputs hcontains] at haddress
      cases haddress
  obtain ⟨start, hstart, hreaches⟩ := hcovers known hnew
  cases List.mem_singleton.1 hstart
  exact hreaches

/-- A node that is known by evaluation is needed, together with its expression. -/
theorem needed (hregular : program.Regular)
    (hfirst : EvaluatedFirst program settings root node machine library final) {marks : Marks}
    (hneeds : Slice.Needs final.store [.node node] marks) {known : NodeId} {env : EnvId}
    {expr : ExprId} {value : Value} (haddress : final.store.address known = .evaluation env expr)
    (hvalue : final.store.value? known = some value) :
    marks.isNeeded (.node known) = true ∧ marks.isNeeded (.expr expr) = true := by
  have hknown := hneeds.of_reaches (hneeds.start _ List.mem_cons_self)
    (hfirst.reaches hregular haddress hvalue)
  exact ⟨hknown, hneeds.expr hknown haddress⟩

/-- A program with the same needed expressions agrees wherever something is known. -/
theorem agrees (hregular : program.Regular)
    (hfirst : EvaluatedFirst program settings root node machine library final) {marks : Marks}
    (hneeds : Slice.Needs final.store [.node node] marks)
    (hdiffers : program.DiffersIn other fun expr ↦ marks.isNeeded (.expr expr) = false) :
    program.AgreesOn other final.store := by
  obtain ⟨hends, -, -⟩ := hfirst.ends hregular other hdiffers.rest
  have hexpr : ∀ {known env expr value}, final.store.address known = .evaluation env expr →
      final.store.value? known = some value → other.expr expr = program.expr expr := by
    intro known env expr value haddress hvalue
    obtain ⟨-, hneeded⟩ := hfirst.needed hregular hneeds haddress hvalue
    exact hdiffers.exprs (by rw [hneeded]; decide)
  have hraw : final.store.RawInputs :=
    hfirst.fresh.opening.toTidy.inputsSatisfy hends.grows hends.inputs hfirst.fresh.opening.raw
  refine ⟨hexpr, fun {known closure} hvalue ↦ ?_⟩
  obtain ⟨source, env, value, haddress, hsource⟩ :=
    (hends.sound.holds hvalue).closure_source hraw hvalue
  exact hexpr haddress hsource

end EvaluatedFirst

/-- A slice backward from the result of an evaluation does what it does on the store. -/
theorem sliceBackward_eq {settings : Settings} {machine : Machine} {library : EnvId} {marks : Marks}
    {roots : List Target} (hslice : Slice.backward (.start .backward) machine.store roots = .ok marks) :
    Session.sliceBackward roots ⟨program, settings, machine, {}, library⟩ =
      .ok () ⟨program, settings, machine, marks, library⟩ := by
  have hensure : Session.ensureDirection .backward ⟨program, settings, machine, {}, library⟩ =
      .ok () ⟨program, settings, machine, .start .backward, library⟩ := rfl
  simp only [Session.sliceBackward, run_bind, hensure, remark, run_get, store, hslice]
  rfl

/-- Backward slices are sound.  If a new session evaluates `root` to a node, then slicing backward
from the node succeeds; every node that is known by evaluation is needed, together with its
expression; and any program that differs only in expressions that are not needed evaluates `root`,
in a new session with the same settings, to the same node, with the same store and the same view of
the node. -/
theorem sliceBackward_sound (hbuilt : program.Built) (hliteral : program.Literal)
    (settings : Settings) {session evaluated : Session} {root : ExprId}
    (hnew : Session.new program settings = .ok session)
    (hevaluate : Session.evaluate root session = .ok node evaluated) :
    ∃ sliced, Session.sliceBackward [.node node] evaluated = .ok () sliced ∧
      (∀ known env expr, evaluated.store.isKnown known = true →
        evaluated.store.address known = .evaluation env expr →
          sliced.marks.isNeeded (.node known) = true ∧ sliced.marks.isNeeded (.expr expr) = true) ∧
      ∀ other : Program,
        program.DiffersIn other (fun expr ↦ sliced.marks.isNeeded (.expr expr) = false) →
        ∃ session' evaluated', Session.new other settings = .ok session' ∧
          Session.evaluate root session' = .ok node evaluated' ∧
          evaluated'.store = evaluated.store ∧
          (View.of evaluated'.store other node).render =
            (View.of evaluated.store program node).render := by
  have hregular := hbuilt.regular hliteral
  obtain ⟨machine, library, final, hfirst, rfl⟩ := EvaluatedFirst.of_new hbuilt hnew hevaluate
  obtain ⟨marks, hslice, hneeds⟩ := Slice.backward_spec final.store [.node node]
  refine ⟨⟨program, settings, final, marks, library⟩, sliceBackward_eq hslice, ?_, ?_⟩
  · intro known env expr hknown haddress
    obtain ⟨hends, -, -⟩ := hfirst.ends hregular program rfl
    obtain ⟨value, hvalue⟩ := hends.sound.isKnown_iff.1 hknown
    exact hfirst.needed hregular hneeds haddress hvalue
  · intro other hdiffers
    obtain ⟨-, -, hfollows⟩ := hfirst.ends hregular other hdiffers.rest
    have hrun := hfollows (hfirst.agrees hregular hneeds hdiffers)
    refine ⟨⟨other, settings, machine, {}, library⟩, ⟨other, settings, final, {}, library⟩, ?_, ?_,
      rfl, ?_⟩
    · refine new_eq_of_opened ?_ settings
      rw [Evaluation.openLibrary, hdiffers.bindPrimitives_eq]
      exact hfirst.fresh.opened
    · rw [evaluate_eq]
      simp only [run, hrun]
    · exact congrArg View.render (hdiffers.view_eq final.store node)

/-- The node of a text refers to nothing. -/
theorem references_of_text (htidy : Tidy program store) {env : EnvId} {expr : ExprId} {text : String}
    (haddress : store.address node = .evaluation env expr) (hexpr : program.expr expr = .text text) :
    store.references node = [] := by
  cases hknown : store.knowledge? node with
  | none => exact Store.references_of_unknown hknown
  | some knowledge =>
    obtain ⟨explanation, value, rfl⟩ := htidy.full hknown
    cases htidy.holds (Store.value?_of_knowledge hknown) with
    | input _ haddress' =>
      rw [haddress] at haddress'
      cases haddress'
    | evaluation allowed haddress' hknown' hrule _ =>
      rw [haddress] at haddress'
      cases haddress'
      rw [hexpr] at hrule
      cases hrule
      rw [Store.references_of_knowledge hknown']
      rfl

/-- What is needed for a text is the expression that it comes from. -/
theorem EvaluatedFirst.needed_of_text (hregular : program.Regular) {settings : Settings}
    {root : ExprId} {machine final : Machine} {library : EnvId} {text : String}
    (hfirst : EvaluatedFirst program settings root node machine library final)
    (hexpr : program.expr root = .text text) {marks : Marks}
    (hneeds : Slice.Needs final.store [.node node] marks) {target : Target}
    (htarget : marks.isNeeded target = true) : target = .node node ∨ target = .expr root := by
  obtain ⟨hends, ⟨outcome, ⟨hreached, -⟩, rfl⟩, -⟩ := hfirst.ends hregular program rfl
  have haddress := hends.sound.address_of_lookup hreached.lookup
  have hdependencies : final.store.dependencies outcome.node = [.expr root] := by
    simp [Store.dependencies, references_of_text hends.sound.toTidy haddress hexpr, haddress,
      Address.expr?]
  let member (target : Target) : Prop := target = .node outcome.node ∨ target = .expr root
  have hroots : ∀ start ∈ [Target.node outcome.node], member start :=
    fun start hstart ↦ .inl (List.mem_singleton.1 hstart)
  have hsources : ∀ {target}, member target →
      ∀ source ∈ Slice.sources final.store target, member source := by
    rintro target (rfl | rfl) source hsource
    · rw [Slice.sources, hdependencies] at hsource
      exact .inr (List.mem_singleton.1 hsource)
    · cases hsource
  exact hneeds.least hroots hsources htarget

/-- Another text in place of the spare one does not touch the used one. -/
theorem sliceBackward_sound_twoTexts : ∃ session node evaluated sliced other session' evaluated',
    Session.new .twoTexts {} = .ok session ∧ Session.evaluate ⟨0⟩ session = .ok node evaluated ∧
    Session.sliceBackward [.node node] evaluated = .ok () sliced ∧
    sliced.marks.isNeeded (.expr ⟨1⟩) = false ∧ other.expr ⟨1⟩ = .text "changed" ∧
    Session.new other {} = .ok session' ∧ Session.evaluate ⟨0⟩ session' = .ok node evaluated' ∧
    evaluated'.store = evaluated.store := by
  have hregular := Program.twoTexts_built.regular Program.twoTexts_literal
  have hused : Program.twoTexts.expr ⟨0⟩ = .text "used" := by
    rw [Program.expr, Program.twoTexts_exprs]
    rfl
  obtain ⟨machine, library, hfresh⟩ := exists_fresh Program.twoTexts_built
  have hsane := hfresh.sane {}
  have hlevels : 1 ≤ ({} : Settings).maxDepth := by decide
  obtain ⟨node, final, hrun⟩ :=
    Evaluation.Succeeds.evaluate hregular hsane.library (.text hregular hsane.library hused) hlevels
      machine rfl hsane.sound hsane.consistent
  have hevaluate : Session.evaluate ⟨0⟩ ⟨.twoTexts, {}, machine, {}, library⟩ =
      .ok node ⟨.twoTexts, {}, final, {}, library⟩ := by
    rw [evaluate_eq]
    simp only [run, hrun]
  obtain ⟨marks, hslice, hneeds⟩ := Slice.backward_spec final.store [.node node]
  have hsliced : Session.sliceBackward [.node node] ⟨.twoTexts, {}, final, {}, library⟩ =
      .ok () ⟨.twoTexts, {}, final, marks, library⟩ := sliceBackward_eq hslice
  have hspare : marks.isNeeded (.expr ⟨1⟩) = false := by
    rw [Bool.eq_false_iff]
    intro hneeded
    obtain hnode | hexpr := EvaluatedFirst.needed_of_text hregular ⟨hfresh, hrun⟩ hused hneeds hneeded
    · cases hnode
    · cases hexpr
  let other : Program := { Program.twoTexts with exprs := #[.text "used", .text "changed"] }
  have hdiffers : Program.twoTexts.DiffersIn other fun expr ↦ marks.isNeeded (.expr expr) = false := by
    refine ⟨rfl, fun {expr} hneeded ↦ ?_⟩
    rw [Program.expr, Program.expr, Program.twoTexts_exprs]
    obtain ⟨_ | _ | index⟩ := expr
    · rfl
    · exact absurd hspare hneeded
    · rfl
  obtain ⟨sliced, hsliced', -, hfollows⟩ := sliceBackward_sound Program.twoTexts_built
    Program.twoTexts_literal {} (hfresh.new_eq {}) hevaluate
  rw [hsliced] at hsliced'
  cases hsliced'
  obtain ⟨session', evaluated', hnew', hevaluate', hstore, -⟩ := hfollows other hdiffers
  exact ⟨_, node, _, _, other, session', evaluated', hfresh.new_eq {}, hevaluate, hsliced, hspare,
    rfl, hnew', hevaluate', hstore⟩

end Session

end Whence
