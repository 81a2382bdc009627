import Whence.Proofs.Derivation.Growth
import Whence.Proofs.Derivation.Uniqueness

/-!
# Sound stores

A store is tidy if all it mentions exists, bindings and inputs refer to earlier nodes, and whatever
is known about a node holds.  It is sound if moreover each group that some environment closes has
all its closures.  Only closing a group leaves a store tidy and not sound, and only until the last
closure has been made.
-/

namespace Whence

/-- What the evaluator takes for granted of a program: the four demands that it makes itself, and
that recursive groups consist of function literals. -/
structure Program.Regular (program : Program) : Prop where
  everything : program.demand .everything = .everything .done
  function : program.demand .function = .function .done
  number : program.demand .number = .number .done
  text : program.demand .text = .text .done
  literals : ∀ {group entry}, entry ∈ (program.group group).entries →
    ∃ demand, program.expr entry.function = .function demand

theorem Program.Regular.isBind_everything {program : Program} (hregular : program.Regular) :
    (program.demand .everything).isBind = false := by
  rw [hregular.everything]
  rfl

/-- The value refers only to nodes and environments that have been handed out. -/
def Value.Within (store : Store) : Value → Prop
  | .closure made => store.envs.Contains made.env ∧
      ∀ scope ∈ made.scope, store.envs.Contains scope.env
  | .constructor _ args => ∀ arg ∈ args, store.Contains arg
  | .primitive (.partially _ first) => store.Contains first
  | _ => True

/-- The binding may extend the environment. -/
def Binding.Fits (program : Program) (store : Store) (env : EnvId) : Binding → Prop
  | .node id => store.Contains id
  | .recursive scope position => store.envs.Contains scope.env ∧
      position < (program.group scope.group).entries.length ∧
      store.envs.entries scope.env <:+ store.envs.entries env

structure Tidy (program : Program) (store : Store) : Prop extends Store.Rooted store where
  evaluation : ∀ {node env expr}, store.Contains node → store.address node = .evaluation env expr →
    store.envs.Contains env ∧
      ∀ {name bound}, (name, Binding.node bound) ∈ store.envs.entries env → bound.index < node.index
  fits : ∀ {env parent name binding}, store.envs.Contains env → store.envs.Contains parent →
    store.envs.entries env = (name, binding) :: store.envs.entries parent →
      binding.Fits program store parent
  input : ∀ {node source}, store.Contains node → store.address node = .input source →
    source = node ∧ ∃ value, store.knowledge? node = some (.of .given value) ∧
      ∀ child ∈ value.children, child.index < node.index
  within : ∀ {node value}, store.value? node = some value → value.Within store
  holds : ∀ {node value}, store.value? node = some value → Holds program store node
  library : ∀ {primitive node}, (primitive, node) ∈ store.library →
    store.knowledge? node = some (.of .given (.primitive primitive.value)) ∧
      store.address node = .input node

/-- Each group that an environment closes has all its closures. -/
structure Sound (program : Program) (store : Store) : Prop extends Tidy program store where
  closed : ∀ {env name scope position},
    (name, Binding.recursive scope position) ∈ store.envs.entries env →
      ∃ inner members, Members program store scope inner members

variable {program : Program} {store store' : Store} {env : EnvId} {node : NodeId}

theorem Value.Within.grow (hgrows : store.Grows store') {value : Value}
    (hwithin : value.Within store) : value.Within store' := by
  cases value with
  | number _ => trivial
  | text _ => trivial
  | closure closure =>
    exact ⟨hgrows.envs.contains hwithin.1, fun scope hscope ↦
      hgrows.envs.contains (hwithin.2 scope hscope)⟩
  | primitive primitive =>
    cases primitive with
    | unary _ => trivial
    | binary _ => trivial
    | partially _ first => exact hgrows.contains hwithin
  | constructor _ args => exact fun arg harg ↦ hgrows.contains (hwithin arg harg)

theorem Binding.Fits.grow (hgrows : store.Grows store') (henv : store.envs.Contains env)
    {binding : Binding} (hfits : binding.Fits program store env) :
    binding.Fits program store' env := by
  cases binding with
  | node node => exact hgrows.contains hfits
  | recursive scope position =>
    obtain ⟨houter, hposition, hsuffix⟩ := hfits
    refine ⟨hgrows.envs.contains houter, hposition, ?_⟩
    rwa [hgrows.envs.entries_eq houter, hgrows.envs.entries_eq henv]

/-- The value has no parts. -/
inductive Value.Flat : Value → Prop
  | number (value : Number) : Flat (.number value)
  | text (value : String) : Flat (.text value)
  | constructor (tag : Symbol) : Flat (.constructor tag [])

theorem UnaryOp.apply_flat {op : UnaryOp} {argument value : Value}
    (happly : op.apply argument = .ok value) : value.Flat := by
  have hnumber : ∀ compute : Float → Value, (∀ number, (compute number).Flat) →
      op.applyNumber compute argument = .ok value → value.Flat := by
    intro compute hflat hcompute
    simp only [applyNumber, Functor.map, Except.map] at hcompute
    split at hcompute
    · cases hcompute
    · cases hcompute
      exact hflat _
  cases op with
  | ceiling => exact hnumber _ (fun _ ↦ .number _) happly
  | floor => exact hnumber _ (fun _ ↦ .number _) happly
  | log => exact hnumber _ (fun _ ↦ .number _) happly
  | intToString => exact hnumber _ (fun _ ↦ .text _) happly
  | error =>
    simp only [apply, bind, Except.bind] at happly
    split at happly <;> cases happly

theorem BinaryOp.apply_flat {op : BinaryOp} {left right value : Value}
    (happly : op.apply left right = .ok value) : value.Flat := by
  have htexts : ∀ first second, (op.onTexts first second).Flat := by
    intro first second
    cases op <;> first | exact .text _ | exact .constructor _
  have hnumbers : ∀ first second, (op.onNumbers first second).Flat := by
    intro first second
    cases op <;> first | exact .number _ | exact .constructor _
  simp only [apply, bind, Except.bind, pure, Except.pure] at happly
  split at happly
  all_goals
    split at happly
    · cases happly
    · split at happly
      · cases happly
      · cases happly
        first | exact htexts _ _ | exact hnumbers _ _

theorem Value.Flat.within {value : Value} (hflat : value.Flat) : value.Within store := by
  cases hflat with
  | number _ => trivial
  | text _ => trivial
  | constructor _ => exact fun arg harg ↦ absurd harg List.not_mem_nil

/-- A rule gives values that refer to what exists if the values which it looks at do so. -/
theorem Rule.within {allowed : NodeId → Prop}
    (hlookup : ∀ {address node}, store.lookup? address = some node → store.Contains node)
    (hallowed : ∀ {node value}, allowed node → store.value? node = some value → value.Within store)
    (henv : store.envs.Contains env) {expr : ExprId} {form : Expr} {explanation : Explanation}
    {value : Value} (hrule : Rule program store allowed env expr form explanation value) :
    value.Within store := by
  cases hrule with
  | number => trivial
  | text => trivial
  | constructor _ _ hregistered =>
    intro arg harg
    have hmem := List.mem_map_of_mem (f := some) harg
    rw [← hregistered] at hmem
    obtain ⟨part, -, hpart⟩ := List.mem_map.1 hmem
    exact hlookup hpart
  | @function _ scope hscope =>
    refine ⟨henv, fun scope' hmem ↦ ?_⟩
    cases hmem
    exact hscope.1.outer
  | var _ _ htarget hvalue => exact hallowed htarget hvalue
  | op _ _ htarget hvalue => exact hallowed htarget hvalue
  | closure _ _ _ _ _ _ _ _ _ hresult => exact hallowed hresult.allowed hresult.value
  | primitive _ hoperand _ hcomputes =>
    cases hcomputes with
    | unary happly => exact (UnaryOp.apply_flat happly).within
    | binary => exact hlookup hoperand.lookup
    | partially _ _ happly => exact (BinaryOp.apply_flat happly).within
  | letIn _ _ _ hresult => exact hallowed hresult.allowed hresult.value
  | letRec _ hresult => exact hallowed hresult.allowed hresult.value
  | matching _ _ _ _ _ hresult => exact hallowed hresult.allowed hresult.value
  | defs _ hresult => exact hallowed hresult.allowed hresult.value

namespace Tidy

/-- Every binding of a chain fits what stands behind it. -/
theorem fits_of_mem (htidy : Tidy program store) {name : Symbol} {binding : Binding}
    (hmem : (name, binding) ∈ store.envs.entries env) :
    ∃ parent, store.envs.Contains parent ∧ binding.Fits program store parent ∧
      store.envs.entries parent <:+ store.envs.entries env := by
  have henv := Environments.contains_of_mem hmem
  generalize hchain : store.envs.entries env = chain at hmem
  induction chain generalizing env with
  | nil => cases hmem
  | cons first rest ih =>
    obtain ⟨name', binding'⟩ := first
    obtain ⟨parent, hparent, hrest, -⟩ := htidy.envs.parent_of_cons henv hchain
    cases hmem with
    | head =>
      refine ⟨parent, hparent, htidy.fits henv hparent (by rw [hchain, hrest]), ?_⟩
      rw [hrest]
      exact List.suffix_cons _ _
    | tail _ hmem =>
      obtain ⟨parent', hparent', hfits, hsuffix⟩ := ih hparent hrest hmem
      exact ⟨parent', hparent', hfits, hsuffix.trans (List.suffix_cons _ _)⟩

theorem bound (htidy : Tidy program store) {name : Symbol} {bound : NodeId}
    (hmem : (name, .node bound) ∈ store.envs.entries env) : store.Contains bound := by
  obtain ⟨parent, -, hfits, -⟩ := htidy.fits_of_mem hmem
  exact hfits

theorem envs_scoped (htidy : Tidy program store) : store.envs.Scoped := by
  intro env name scope position hmem
  obtain ⟨parent, -, hfits, -⟩ := htidy.fits_of_mem hmem
  exact hfits.1

theorem holds_grow (htidy : Tidy program store) (hgrows : store.Grows store')
    (hholds : Holds program store node) : Holds program store' node :=
  hholds.grow htidy.envs htidy.envs_scoped (fun hnode haddress ↦ (htidy.evaluation hnode haddress).1)
    hgrows

/-- What is known about an evaluated node comes from the rule for its expression. -/
theorem rule (htidy : Tidy program store) {expr : ExprId}
    (hlookup : store.lookup? (.evaluation env expr) = some node) {explanation : Explanation}
    {value : Value} (hknown : store.knowledge? node = some (.of explanation value)) :
    Rule program store (fun _ ↦ True) env expr (program.expr expr) explanation value := by
  have haddress := htidy.address_of_lookup hlookup
  cases htidy.holds (Store.value?_of_knowledge hknown) with
  | input _ hinput => simp [haddress] at hinput
  | evaluation allowed hevaluation hknown' hrule _ =>
    rw [haddress] at hevaluation
    cases hevaluation
    rw [hknown] at hknown'
    cases hknown'
    have henv := (htidy.evaluation (htidy.contains_of_lookup hlookup) haddress).1
    exact hrule.grow htidy.envs htidy.envs_scoped (.refl store) (fun _ _ ↦ trivial) henv

/-- A store that has grown is tidy if what is new in it is in order. -/
theorem of_grows (htidy : Tidy program store) (hgrows : store.Grows store')
    (hrooted : store'.Rooted)
    (hevaluation : ∀ {node env expr}, store'.Contains node → ¬store.Contains node →
      store'.address node = .evaluation env expr → store'.envs.Contains env ∧
        ∀ {name bound}, (name, Binding.node bound) ∈ store'.envs.entries env →
          bound.index < node.index)
    (hinput : ∀ {node source}, store'.Contains node → ¬store.Contains node →
      store'.address node = .input source → source = node ∧
        ∃ value, store'.knowledge? node = some (.of .given value) ∧
          ∀ child ∈ value.children, child.index < node.index)
    (hfits : ∀ {env parent name binding}, store'.envs.Contains env → ¬store.envs.Contains env →
      store'.envs.Contains parent →
      store'.envs.entries env = (name, binding) :: store'.envs.entries parent →
        binding.Fits program store' parent)
    (hvalue : ∀ {node value}, store'.value? node = some value → store.value? node = none →
      value.Within store' ∧ Holds program store' node) : Tidy program store' where
  toRooted := hrooted
  evaluation {node env expr} hnode haddress := by
    by_cases hold : store.Contains node
    · rw [hgrows.address_eq hold] at haddress
      obtain ⟨henv, hbound⟩ := htidy.evaluation hold haddress
      refine ⟨hgrows.envs.contains henv, ?_⟩
      rw [hgrows.envs.entries_eq henv]
      exact hbound
    · exact hevaluation hnode hold haddress
  fits {env parent name binding} henv hparent hentries := by
    by_cases hold : store.envs.Contains env
    · rw [hgrows.envs.entries_eq hold] at hentries
      obtain ⟨parent', hparent', hrest, -⟩ := htidy.envs.parent_of_cons hold hentries
      -- Chains are equal only if the environments are, so the parent is an old one.
      have hsame : parent' = parent := by
        refine hrooted.envs.eq_of_entries_eq (hgrows.envs.contains hparent') hparent ?_
        rw [hgrows.envs.entries_eq hparent', hrest]
      subst hsame
      rw [← hrest] at hentries
      exact (htidy.fits hold hparent' hentries).grow hgrows hparent'
    · exact hfits henv hold hparent hentries
  input {node source} hnode haddress := by
    by_cases hold : store.Contains node
    · rw [hgrows.address_eq hold] at haddress
      obtain ⟨hsource, value, hknown, hchildren⟩ := htidy.input hold haddress
      exact ⟨hsource, value, hgrows.knowledge hknown, hchildren⟩
    · exact hinput hnode hold haddress
  within {node value} hnode := by
    cases hold : store.value? node with
    | none => exact (hvalue hnode hold).1
    | some value' =>
      rw [hgrows.value hold] at hnode
      cases hnode
      exact (htidy.within hold).grow hgrows
  holds {node value} hnode := by
    cases hold : store.value? node with
    | none => exact (hvalue hnode hold).2
    | some value' => exact htidy.holds_grow hgrows (htidy.holds hold)
  library {primitive node} hmem := by
    rw [hgrows.library] at hmem
    obtain ⟨hknown, haddress⟩ := htidy.library hmem
    refine ⟨hgrows.knowledge hknown, ?_⟩
    rw [hgrows.address_eq (Store.contains_of_knowledge hknown), haddress]

/-! ## What the operations keep -/

theorem register (htidy : Tidy program store) (henv : store.envs.Contains env) (expr : ExprId) :
    Tidy program (store.register (.evaluation env expr)).2 := by
  cases hlookup : store.lookup? (.evaluation env expr) with
  | some node => rwa [Store.register_of_lookup hlookup]
  | none =>
    rw [Store.register_of_none hlookup]
    have haddress : ∀ {node : NodeId}, (store.allot (.evaluation env expr)).Contains node →
        ¬store.Contains node → node.index = store.size ∧
          (store.allot (.evaluation env expr)).address node = .evaluation env expr := by
      intro node hnode hnew
      have hindex : node.index = store.size := by
        simp only [Store.Contains, Store.size_allot] at hnode hnew
        omega
      exact ⟨hindex, by simp [Store.address, Store.node_allot, hindex]⟩
    refine htidy.of_grows (Store.allot_grows hlookup) (Store.allot_rooted htidy.toRooted hlookup)
      ?_ ?_ ?_ ?_
    · intro node env' expr' hnode hnew heq
      obtain ⟨hindex, hnode⟩ := haddress hnode hnew
      rw [hnode] at heq
      cases heq
      refine ⟨henv, fun hmem ↦ ?_⟩
      rw [hindex]
      exact htidy.bound hmem
    · intro node source hnode hnew heq
      rw [(haddress hnode hnew).2] at heq
      cases heq
    · intro env' _ _ _ henv' hnew _ _
      exact absurd henv' hnew
    · intro node value hnode hunknown
      rw [Store.value?_eq, Store.knowledge?_allot, ← Store.value?_eq, hunknown] at hnode
      cases hnode

theorem extend (htidy : Tidy program store) (henv : store.envs.Contains env) (name : Symbol)
    {binding : Binding} (hfits : binding.Fits program store env) :
    Tidy program (store.extend env name binding).2 := by
  have hgrows : store.Grows (store.extend env name binding).2 :=
    Store.withEnvs_grows (Environments.extend_grows store.envs env name binding)
  have hrooted := Store.extend_rooted htidy.toRooted henv name binding
  refine htidy.of_grows hgrows hrooted ?_ ?_ ?_ ?_
  · intro node _ _ hnode hnew _
    exact absurd hnode hnew
  · intro node _ hnode hnew _
    exact absurd hnode hnew
  · intro env' parent name' binding' henv' hnew hparent hentries
    -- The only new environment is the extension itself.
    have hsame : env' = (store.envs.extend env name binding).1 :=
      Environments.eq_extend_of_contains henv' hnew
    have hchain : (store.extend env name binding).2.envs.entries env' =
        (name, binding) :: (store.extend env name binding).2.envs.entries env := by
      rw [hgrows.envs.entries_eq henv, hsame]
      exact Environments.entries_extend htidy.envs env name binding
    rw [hchain] at hentries
    injection hentries with hhead hrest
    cases hhead
    have hparents : env = parent :=
      hrooted.envs.eq_of_entries_eq (hgrows.envs.contains henv) hparent hrest
    subst hparents
    exact hfits.grow hgrows henv
  · intro node value hnode hunknown
    change store.value? node = some value at hnode
    rw [hunknown] at hnode
    cases hnode

/-- The knowledge that a rule gives may be entered. -/
theorem enter (htidy : Tidy program store) {expr : ExprId}
    (hlookup : store.lookup? (.evaluation env expr) = some node)
    (hunknown : store.knowledge? node = none) {explanation : Explanation} {value : Value}
    (hrule : Rule program store (fun _ ↦ True) env expr (program.expr expr) explanation value) :
    Tidy program (store.enter node (.of explanation value)) := by
  have hnode := htidy.contains_of_lookup hlookup
  have haddress := htidy.address_of_lookup hlookup
  have henv := (htidy.evaluation hnode haddress).1
  have hgrows : store.Grows (store.enter node (.of explanation value)) :=
    Store.enter_grows htidy.toRooted hnode hunknown
  refine htidy.of_grows hgrows (Store.enter_rooted htidy.toRooted hnode explanation value)
    ?_ ?_ ?_ ?_
  · intro other _ _ hother hnew _
    rw [Store.Contains, Store.size_enter] at hother
    exact absurd hother hnew
  · intro other _ hother hnew _
    rw [Store.Contains, Store.size_enter] at hother
    exact absurd hother hnew
  · intro env' _ _ _ henv' hnew _ _
    exact absurd henv' hnew
  · intro other value' hother hold
    have hknown : ∀ other, (store.enter node (.of explanation value)).knowledge? other =
        if node = other then some (.of explanation value) else store.knowledge? other :=
      Store.knowledge?_enter htidy.toRooted hnode
    have hsame : node = other := by
      apply Classical.byContradiction
      intro hne
      rw [Store.value?_eq, hknown, if_neg hne, ← Store.value?_eq, hold] at hother
      cases hother
    subst hsame
    have hentered := hknown node
    rw [if_pos rfl] at hentered
    rw [Store.value?_of_knowledge hentered] at hother
    cases hother
    have hwithin := hrule.within htidy.contains_of_lookup (fun _ hvalue ↦ htidy.within hvalue) henv
    refine ⟨hwithin.grow hgrows,
      ?_⟩
    -- The rule looks at known nodes only, and what is known of them holds.
    refine .evaluation (fun source ↦ ∃ value, store.value? source = some value)
      ((hgrows.address_eq hnode).trans haddress) hentered
      (hrule.grow htidy.envs htidy.envs_scoped hgrows (fun _ hvalue ↦ ⟨_, hvalue⟩) henv) ?_
    rintro source ⟨value', hvalue'⟩
    exact htidy.holds_grow hgrows (htidy.holds hvalue')

theorem extendAll (bindings : List (Symbol × Binding)) (htidy : Tidy program store)
    (henv : store.envs.Contains env)
    (hfits : ∀ entry ∈ bindings, entry.2.Fits program store env) :
    Tidy program { store with envs := (store.envs.extendAll env bindings).2 } := by
  induction bindings generalizing store env with
  | nil => exact htidy
  | cons first rest ih =>
    obtain ⟨name, binding⟩ := first
    have hfirst := htidy.extend henv name (hfits _ List.mem_cons_self)
    have hgrows : store.Grows (store.extend env name binding).2 :=
      Store.withEnvs_grows (Environments.extend_grows store.envs env name binding)
    have hchain : (store.extend env name binding).2.envs.entries
        (store.envs.extend env name binding).1 = (name, binding) :: store.envs.entries env :=
      Environments.entries_extend htidy.envs env name binding
    have hbehind : (store.extend env name binding).2.envs.entries env <:+
        (store.extend env name binding).2.envs.entries (store.envs.extend env name binding).1 := by
      rw [hchain, hgrows.envs.entries_eq henv]
      exact List.suffix_cons _ _
    refine ih hfirst (Environments.contains_extend htidy.envs env name binding) fun entry hentry ↦ ?_
    have hentry := (hfits entry (List.mem_cons_of_mem _ hentry)).grow hgrows henv
    obtain ⟨name', _ | ⟨scope, position⟩⟩ := entry
    · exact hentry
    · obtain ⟨houter, hposition, hsuffix⟩ := hentry
      exact ⟨houter, hposition, hsuffix.trans hbehind⟩

/-- The bindings of a group may extend the environment around it. -/
theorem recursiveBindings_fit {scope : Scope} (houter : store.envs.Contains scope.env) :
    ∀ entry ∈ program.recursiveBindings scope, entry.2.Fits program store scope.env := by
  intro entry hentry
  obtain ⟨⟨member, position⟩, hmember, rfl⟩ := List.mem_map.1 hentry
  refine ⟨houter, ?_, List.suffix_refl _⟩
  exact (List.getElem?_eq_some_iff.1 (List.mem_zipIdx_iff_getElem?.1 hmember)).1

end Tidy

namespace Sound

/-- New environments are no obstacle if the groups that they close have their closures. -/
theorem of_extendAll (hsound : Sound program store) (bindings : List (Symbol × Binding))
    (henv : store.envs.Contains env) (htidy : Tidy program store')
    (hgrows : store.Grows store') (henvs : store'.envs = (store.envs.extendAll env bindings).2)
    (hclosed : ∀ {name scope position}, (name, Binding.recursive scope position) ∈ bindings →
      ∃ inner members, Members program store' scope inner members) : Sound program store' where
  toTidy := htidy
  closed {env' name scope position} hmem := by
    by_cases hold : store.envs.Contains env'
    · rw [hgrows.envs.entries_eq hold] at hmem
      obtain ⟨inner, members, hmembers⟩ := hsound.closed hmem
      exact ⟨inner, members, hmembers.grow hgrows⟩
    · have henv' := Environments.contains_of_mem hmem
      rw [henvs] at hmem henv'
      obtain hnew | hmem :=
        Environments.mem_of_extendAll bindings hsound.envs henv henv' hold hmem
      · exact hclosed hnew
      · obtain ⟨inner, members, hmembers⟩ := hsound.closed hmem
        exact ⟨inner, members, hmembers.grow hgrows⟩

/-- Knowledge and nodes that are new are no obstacle either. -/
theorem of_envs_eq (hsound : Sound program store) (htidy : Tidy program store')
    (hgrows : store.Grows store') (henvs : store'.envs = store.envs) : Sound program store' :=
  hsound.of_extendAll [] hsound.envs.contains_empty htidy hgrows henvs
    fun hmem ↦ absurd hmem List.not_mem_nil

/-- Binding names to nodes keeps a store sound. -/
theorem bindNodes (bindings : List (Symbol × Binding)) (hsound : Sound program store)
    (henv : store.envs.Contains env)
    (hnodes : ∀ entry ∈ bindings, ∃ node, entry.2 = .node node ∧ store.Contains node) :
    Sound program { store with envs := (store.envs.extendAll env bindings).2 } := by
  have hfits : ∀ entry ∈ bindings, entry.2.Fits program store env := by
    intro entry hentry
    obtain ⟨node, hnode, hcontains⟩ := hnodes entry hentry
    rw [hnode]
    exact hcontains
  refine hsound.of_extendAll bindings henv (hsound.toTidy.extendAll bindings henv hfits)
    (Store.withEnvs_grows (Environments.extendAll_spec bindings hsound.envs henv).1) rfl ?_
  intro name scope position hmem
  obtain ⟨node, hnode, -⟩ := hnodes _ hmem
  cases hnode

end Sound

end Whence
