import Whence.Proofs.Sessions

/-!
# Explanations can be replayed

An explanation names a rule and the nodes that the rule looked at.  Applying the rule to what these
nodes hold gives back the value that is explained, however much later it is done.  Where the rule
goes on with a body that a match selects, the explanation leads to the node of that body, in the
environment that binds what the match has bound.
-/

namespace Whence

variable {program : Program} {store : Store} {env : EnvId} {expr : ExprId}

namespace Store

/-- The group from which the closure of a function literal is made.  The innermost binding of the
environment names the only group that it may close. -/
def scopeOf? (store : Store) (program : Program) (env : EnvId) (function : ExprId) : Option Scope :=
  match store.envs.entries env with
  | (_, .recursive scope _) :: _ =>
    if store.envs.entries env =
          (program.recursiveBindings scope).reverse ++ store.envs.entries scope.env ∧
        function ∈ (program.group scope.group).entries.map GroupEntry.function then
      some scope
    else none
  | _ => none

/-- The value of an expression that needs no evaluation of parts. -/
def denoted? (store : Store) (program : Program) (env : EnvId) (expr : ExprId) : Option Value :=
  match program.expr expr with
  | .number value => some (.number value)
  | .text value => some (.text value)
  | .constructor tag args =>
    (args.mapM fun arg ↦ store.lookup? (.evaluation env arg)).map (.constructor tag)
  | .function _ => some (.closure ⟨env, expr, store.scopeOf? program env expr⟩)
  | _ => none

/-- What the rule that an explanation names makes of the values of the nodes it refers to, for the
node of an expression in an environment. -/
def replay? (store : Store) (program : Program) (env : EnvId) (expr : ExprId) :
    Explanation → Option Value
  | .given => store.denoted? program env expr
  | .lookup _ source | .application _ _ _ _ source | .letIn _ _ source | .letRec _ source
  | .defs _ source | .matching _ _ source => store.value? source
  | .unary function argument =>
    match store.value? function with
    | some (.primitive (.unary op)) =>
      (store.value? argument).bind fun operand ↦ (op.apply operand).toOption
    | some (.primitive (.binary op)) => some (.primitive (.partially op argument))
    | _ => none
  | .binary function left op right =>
    if store.value? function = some (.primitive (.partially op left)) then do
      let first ← store.value? left
      let second ← store.value? right
      (op.apply first second).toOption
    else none

end Store

/-- Matching the node against the demand has one outcome.  It examines the nodes `matched` and
selects the expression of which `body` is the node, in the environment in which the bindings of the
match are laid over those of `outer`. -/
def Selects (program : Program) (store : Store) (node : NodeId) (demand : DemandId) (outer : EnvId)
    (matched : List NodeId) (body : NodeId) : Prop :=
  ∃ outcome selected inner,
    (∀ other, Settles program store (fun _ ↦ True) node demand other ↔ other = outcome) ∧
    outcome.inspected = matched ∧ outcome.next = .body selected ∧
    store.envs.concat outcome.env outer = (inner, store.envs) ∧
    store.address body = .evaluation inner selected

/-- An explanation by a match leads to the body that the match selects. -/
def Explanation.Leads (program : Program) (store : Store) (env : EnvId) (expr : ExprId) :
    Explanation → Prop
  | .application function argument _ matched body =>
    ∃ callee operand closure parameter, program.expr expr = .app callee operand ∧
      store.address function = .evaluation env callee ∧
      store.address argument = .evaluation env operand ∧
      store.value? function = some (.closure closure) ∧
      program.expr closure.function = .function parameter ∧
      Selects program store argument parameter closure.env matched body
  | .matching scrutinee matched body =>
    ∃ examined cases, program.expr expr = .matching examined cases ∧
      store.address scrutinee = .evaluation env examined ∧
      Selects program store scrutinee cases env matched body
  | _ => True

theorem ScopeOf.scopeOf?_eq (hscoped : store.envs.Scoped) (henv : store.envs.Contains env)
    {scope : Option Scope} (hscope : ScopeOf program store env expr scope) :
    store.scopeOf? program env expr = scope := by
  cases scope with
  | some scope =>
    obtain ⟨name, position, rest, hhead⟩ := IsMember.head hscope
    obtain ⟨hcloses, entry, hentry, rfl⟩ := hscope
    have hentries := hcloses.entries
    rw [hhead] at hentries
    simp only [Store.scopeOf?, hhead]
    exact if_pos ⟨hentries, List.mem_map_of_mem hentry⟩
  | none =>
    unfold Store.scopeOf?
    split
    case h_1 name scope position rest hhead =>
      refine if_neg fun hmember ↦ hscope scope ?_
      have houter : store.envs.Contains scope.env :=
        hscoped (hhead ▸ List.mem_cons_self : (name, Binding.recursive scope position) ∈ _)
      exact ⟨⟨houter, henv, hmember.1⟩, List.mem_map.1 hmember.2⟩
    case h_2 => rfl

theorem Registered.mapM_eq {args : List ExprId} {nodes : List NodeId}
    (hregistered : Registered store env args nodes) :
    args.mapM (fun arg ↦ store.lookup? (.evaluation env arg)) = some nodes := by
  induction args generalizing nodes with
  | nil =>
    cases nodes with
    | nil => rfl
    | cons node nodes => cases hregistered
  | cons arg args ih =>
    cases nodes with
    | nil => cases hregistered
    | cons node nodes =>
      simp only [Registered, List.map_cons, List.cons.injEq] at hregistered
      simp [List.mapM_cons, hregistered.1, ih hregistered.2]

/-- What a rule has given can be found again from its explanation. -/
theorem Rule.replay?_eq (hscoped : store.envs.Scoped) (henv : store.envs.Contains env)
    {allowed : NodeId → Prop} {explanation : Explanation} {value : Value}
    (hrule : Rule program store allowed env expr (program.expr expr) explanation value) :
    store.replay? program env expr explanation = some value := by
  generalize hform : program.expr expr = form at hrule
  cases hrule with
  | number => simp only [Store.replay?, Store.denoted?, hform]
  | text => simp only [Store.replay?, Store.denoted?, hform]
  | constructor _ _ hregistered =>
    simp only [Store.replay?, Store.denoted?, hform, hregistered.mapM_eq, Option.map_some]
  | function hscope =>
    simp only [Store.replay?, Store.denoted?, hform, hscope.scopeOf?_eq hscoped henv]
  | var _ _ _ hvalue => exact hvalue
  | op _ _ _ hvalue => exact hvalue
  | closure _ _ _ _ _ _ _ _ _ hresult => exact hresult.value
  | primitive happlied hoperand _ hcomputes =>
    cases hcomputes with
    | unary happly =>
      simp only [Store.replay?, happlied.value, hoperand.value, Option.bind_some, happly]
      rfl
    | binary => simp only [Store.replay?, happlied.value]
    | partially _ hfirst happly =>
      simp only [Store.replay?, happlied.value, ↓reduceIte, hfirst, hoperand.value, happly,
        Option.bind_eq_bind, Option.bind_some]
      rfl
  | letIn _ _ _ hresult => exact hresult.value
  | letRec _ hresult => exact hresult.value
  | matching _ _ _ _ _ hresult => exact hresult.value
  | defs _ hresult => exact hresult.value

namespace Tidy

theorem selects (htidy : Tidy program store) {node body : NodeId} {demand : DemandId}
    {outer inner : EnvId} {outcome : Outcome} {selected : ExprId}
    (hsettles : Settles program store (fun _ ↦ True) node demand outcome)
    (hnext : outcome.next = .body selected) (houter : store.envs.Contains outer)
    (hinner : store.envs.Contains inner)
    (hentries : store.envs.entries inner =
      store.envs.entries outcome.env ++ store.envs.entries outer)
    (hlookup : store.lookup? (.evaluation inner selected) = some body) :
    Selects program store node demand outer outcome.inspected body := by
  refine ⟨outcome, selected, inner, fun other ↦ ⟨fun hother ↦ ?_, ?_⟩, rfl, hnext,
    Environments.concat_eq_of_entries htidy.envs houter hinner hentries,
    htidy.address_of_lookup hlookup⟩
  · exact hother.unique htidy.envs hsettles
  · rintro rfl
    exact hsettles

/-- The explanation that a rule gives leads to the body that the rule went on with. -/
theorem leads (htidy : Tidy program store) (henv : store.envs.Contains env)
    {explanation : Explanation} {value : Value}
    (hrule : Rule program store (fun _ ↦ True) env expr (program.expr expr) explanation value) :
    explanation.Leads program store env expr := by
  generalize hform : program.expr expr = form at hrule
  cases hrule with
  | closure happlied hparameter hoperand hsettles hnext _ houter hinner hentries hresult =>
    exact ⟨_, _, _, _, hform, htidy.address_of_lookup happlied.lookup,
      htidy.address_of_lookup hoperand, happlied.value, hparameter,
      htidy.selects hsettles hnext houter hinner hentries hresult.lookup⟩
  | matching hoperand hsettles hnext hinner hentries hresult =>
    exact ⟨_, _, hform, htidy.address_of_lookup hoperand,
      htidy.selects hsettles hnext henv hinner hentries hresult.lookup⟩
  | primitive _ _ _ hcomputes => cases hcomputes <;> trivial
  | _ => trivial

/-- What is known about an evaluated node has an explanation that can be replayed. -/
theorem replays (htidy : Tidy program store) {node : NodeId} (hknown : store.isKnown node = true)
    (haddress : store.address node = .evaluation env expr) :
    ∃ explanation value, store.knowledge? node = some (.of explanation value) ∧
      store.replay? program env expr explanation = some value ∧
      explanation.Leads program store env expr := by
  obtain ⟨value, hvalue⟩ := htidy.isKnown_iff.1 hknown
  obtain ⟨explanation, hknowledge⟩ := htidy.knowledge_of_value hvalue
  have hnode := Store.contains_of_value hvalue
  have hlookup := htidy.lookup_address hnode
  rw [haddress] at hlookup
  have henv := (htidy.evaluation hnode haddress).1
  have hrule := htidy.rule hlookup hknowledge
  exact ⟨explanation, value, hknowledge, hrule.replay?_eq htidy.envs_scoped henv,
    htidy.leads henv hrule⟩

end Tidy

namespace Session

variable {session : Session}

/-- Every explanation can be replayed.  After any run of a new session before a revision is opened,
an evaluated node of which anything is known has an explanation and a value.  Applying the rule that
the explanation names to the values of the nodes that it refers to gives back that value, and an
explanation by a match leads to the node of the body that the match selects. -/
theorem explanation_replays (hbuilt : program.Built) (hliteral : program.Literal)
    (settings : Settings) (hnew : Session.new program settings = .ok session) {calls : List Call}
    (hplain : ∀ call ∈ calls, call.isPlain = true) (hadmits : session.Admits calls) {node : NodeId}
    (hknown : (session.after calls).store.isKnown node = true)
    (haddress : (session.after calls).store.address node = .evaluation env expr) :
    ∃ explanation value,
      (session.after calls).store.knowledge? node = some (.of explanation value) ∧
      (session.after calls).store.replay? program env expr explanation = some value ∧
      explanation.Leads program (session.after calls).store env expr := by
  obtain ⟨machine, library, hfresh⟩ := exists_fresh hbuilt
  rw [hfresh.new_eq] at hnew
  cases hnew
  obtain ⟨hsane, hcontinues⟩ :=
    (hfresh.sane settings).after (hbuilt.regular hliteral) hplain hadmits
  have htidy := hsane.sound.toTidy
  rw [hcontinues.program] at htidy
  exact htidy.replays hknown haddress

end Session

/-! ## A name that is bound to an input -/

namespace Program

/-- A program that consists of a name. -/
def oneName : Program := (Builder.outcome (Builder.Call.var "x").run .initial).2

theorem oneName_built : oneName.Built := .call _ .initial

theorem oneName_literal : oneName.Literal := by
  apply Literal.of_groups_eq_empty
  exact initial_empty.2

theorem oneName_spec : ∃ symbol, oneName.symbol? "x" = some symbol ∧
    oneName.exprs = #[.var symbol] := by
  refine ⟨(initial.intern "x").1, ?_, ?_⟩
  · exact SymbolTable.symbol?_intern_self initial.symbols "x"
  · change initial.exprs.push (.var (initial.intern "x").1) = _
    rw [initial_empty.1]
    rfl

end Program

namespace Session

variable {session : Session}

/-- A name that is bound to a value without parts is explained by the node that it is bound to. -/
theorem Sane.evaluate_var (hregular : session.program.Regular)
    (hsane : session.Sane) (henv : session.store.envs.Contains env) {symbol : Symbol}
    (hexpr : session.program.expr expr = .var symbol) {source : NodeId} {value : Value}
    (hbinding : session.store.envs.get? env symbol = some (.node source))
    (hvalue : session.store.value? source = some value) (hparts : value.parts = [])
    (hdepth : 0 < session.settings.maxDepth) :
    ∃ node, (session.answer (.evaluate env expr)).1 = .ok (.node node) ∧
      session.store.Notes env expr (session.answer (.evaluate env expr)).2.store ∧
      (session.answer (.evaluate env expr)).2.store.address node = .evaluation env expr ∧
      (session.answer (.evaluate env expr)).2.store.knowledge? node =
        some (.of (.lookup symbol source) value) := by
  obtain ⟨node, final, hrun, hnotes⟩ := evaluation_of_nested (Evaluation.nested_var session.settings
    hregular hsane.sound hsane.consistent henv hexpr hbinding hvalue hparts) hdepth
  obtain ⟨hsane', hcontinues, -, hresult⟩ := hsane.evaluate hregular henv expr
  have hanswer : session.answer (.evaluate env expr) =
      (.ok (.node node), { session with machine := final }) := by
    rw [answer_evaluate, hrun]
    rfl
  obtain ⟨node', hnode', outcome, ⟨hreached, -⟩, rfl⟩ | ⟨error, herror, -⟩ := hresult
  · have htidy := hsane'.sound.toTidy
    obtain ⟨held, hheld⟩ := hreached.settled.exists_value hregular.isBind_everything
    obtain ⟨explanation, hknowledge⟩ := htidy.knowledge_of_value hheld
    refine ⟨_, hnode', hanswer ▸ hnotes, htidy.address_of_lookup hreached.lookup, ?_⟩
    have hrule := htidy.rule hreached.lookup hknowledge
    rw [hcontinues.program, hexpr] at hrule
    cases hrule with
    | var hbinding' hresolves _ hvalue' =>
      rw [hcontinues.grows.get? hbinding] at hbinding'
      cases hbinding'
      cases hresolves
      rw [hcontinues.grows.value hvalue] at hvalue'
      cases hvalue'
      exact hknowledge
  · rw [hanswer] at herror
    cases herror

/-- Taking in the text gives the source, and binding a name to it gives the environment. -/
def Binds (session : Session) (text : String) (source : NodeId) (env : EnvId) : Prop :=
  (session.answer (.input (.text text))).1 = .ok (.node source) ∧
    ((session.answer (.input (.text text))).2.answer (.bind session.library "x" source)).1 =
      .ok (.env (some env))

/-- The second session is the first one after it has taken in a text and bound to it the name that is
the first expression of the program.  All its nodes are inputs. -/
structure BindsName (program : Program) (session bound : Session) (text : String) (source : NodeId)
    (env : EnvId) (symbol : Symbol) : Prop where
  new_eq : Session.new program {} = .ok session
  binds : session.Binds text source env
  after_eq : session.after [.input (.text text), .bind session.library "x" source] = bound
  admits : session.Admits [.input (.text text), .bind session.library "x" source]
  sane : bound.Sane
  program_eq : bound.program = program
  settings_eq : bound.settings = {}
  regular : program.Regular
  expr : program.expr ⟨0⟩ = .var symbol
  contains : bound.store.envs.Contains env
  get? : bound.store.envs.get? env symbol = some (.node source)
  knowledge : bound.store.knowledge? source = some (.of .given (.text text))
  inputs : ∀ {node}, bound.store.Contains node → bound.store.address node = .input node

theorem exists_bindsName (hbuilt : program.Built) (hliteral : program.Literal) {symbol : Symbol}
    (hsymbol : program.symbol? "x" = some symbol) (hexpr : program.exprs[0]? = some (.var symbol))
    (text : String) :
    ∃ session bound source env, BindsName program session bound text source env symbol := by
  obtain ⟨machine, library, hfresh⟩ := exists_fresh hbuilt
  obtain ⟨source, first, hfirst, hsane, hcontinues, htaken⟩ :=
    (hfresh.sane {}).input (.text text) trivial
  have hlibrary := hcontinues.grows.envs.contains (hfresh.sane {}).library
  have hsource := Store.contains_of_knowledge htaken.knowledge
  have hname : first.program.symbol? "x" = some symbol := hcontinues.program.symm ▸ hsymbol
  have hbound := hsane.bind hlibrary hsource "x"
  rw [answer_bind_of_some hname] at hbound
  refine ⟨_, _, source, (first.store.extend library symbol (.node source)).1, {
    new_eq := hfresh.new_eq {}
    binds := ?_
    after_eq := ?_
    admits := ?_
    sane := hbound.1
    program_eq := hcontinues.program
    settings_eq := hcontinues.settings
    regular := hbuilt.regular hliteral
    expr := by rw [Program.expr, hexpr]; rfl
    contains := Environments.contains_extend hsane.sound.envs _ _ _
    get? := Environments.get?_extend hsane.sound.envs _ _ _
    knowledge := htaken.knowledge
    inputs := htaken.inputs hfresh.opening.inputs }⟩
  · rw [Binds, hfirst, answer_bind_of_some hname]
    exact ⟨rfl, rfl⟩
  · simp only [after, List.foldl_cons, List.foldl_nil, hfirst]
    rw [answer_bind_of_some hname]
  · refine ⟨trivial, ?_, trivial⟩
    rw [hfirst]
    exact ⟨hlibrary, hsource⟩

/-- What the evaluation of the name comes to in the session that has bound it. -/
theorem BindsName.evaluate {bound : Session} {text : String} {source : NodeId} {symbol : Symbol}
    (hbinds : BindsName program session bound text source env symbol) :
    ∃ node, (bound.answer (.evaluate env ⟨0⟩)).1 = .ok (.node node) ∧
      bound.store.Notes env ⟨0⟩ (bound.answer (.evaluate env ⟨0⟩)).2.store ∧
      (bound.answer (.evaluate env ⟨0⟩)).2.store.address node = .evaluation env ⟨0⟩ ∧
      (bound.answer (.evaluate env ⟨0⟩)).2.store.knowledge? node =
        some (.of (.lookup symbol source) (.text text)) :=
  hbinds.sane.evaluate_var (hbinds.program_eq ▸ hbinds.regular) hbinds.contains
    (hbinds.program_eq ▸ hbinds.expr) hbinds.get? (Store.value?_of_knowledge hbinds.knowledge) rfl
    (hbinds.settings_eq ▸ Nat.zero_lt_succ _)

end Session

/-- The name is explained by the input that it is bound to, and holds its value. -/
theorem Session.explanation_replays_oneName : ∃ session source env symbol node calls,
    Session.new .oneName {} = .ok session ∧
    calls = [.input (.text "more"), .bind session.library "x" source, .evaluate env ⟨0⟩] ∧
    (session.after calls).store.address node = .evaluation env ⟨0⟩ ∧
    (session.after calls).store.knowledge? node =
      some (.of (.lookup symbol source) (.text "more")) ∧
    (session.after calls).store.replay? .oneName env ⟨0⟩ (.lookup symbol source) =
      some (.text "more") := by
  obtain ⟨symbol, hsymbol, hexprs⟩ := Program.oneName_spec
  obtain ⟨session, bound, source, env, hbinds⟩ := exists_bindsName Program.oneName_built
    Program.oneName_literal hsymbol (by rw [hexprs]; rfl) "more"
  obtain ⟨node, -, -, haddress, hknowledge⟩ := hbinds.evaluate
  obtain ⟨calls, hcalls⟩ : ∃ calls, calls =
    [Call.input (.text "more"), .bind session.library "x" source, .evaluate env ⟨0⟩] := ⟨_, rfl⟩
  have hafter : session.after calls = (bound.answer (.evaluate env ⟨0⟩)).2 := by
    rw [hcalls, ← hbinds.after_eq]
    rfl
  have hplain : ∀ call ∈ calls, call.isPlain = true := by simp [hcalls, Call.isPlain]
  have hadmits : session.Admits calls := by
    obtain ⟨hinput, hbind, -⟩ := hbinds.admits
    have henv := hbinds.contains
    rw [← hbinds.after_eq] at henv
    rw [hcalls]
    exact ⟨hinput, hbind, henv, trivial⟩
  rw [← hafter] at haddress hknowledge
  have hknown : (session.after calls).store.isKnown node = true := by
    rw [Store.isKnown, hknowledge]
    rfl
  obtain ⟨explanation, value, hknowledge', hreplay, -⟩ := explanation_replays Program.oneName_built
    Program.oneName_literal {} hbinds.new_eq hplain hadmits hknown haddress
  rw [hknowledge] at hknowledge'
  cases hknowledge'
  exact ⟨session, source, env, symbol, node, calls, hbinds.new_eq, hcalls, haddress, hknowledge,
    hreplay⟩

end Whence
