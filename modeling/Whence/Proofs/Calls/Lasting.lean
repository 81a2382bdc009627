import Whence.Proofs.Calls.Courses

/-!
# What lasts through calls

Each call of the builder consists of single changes to the program.  What these lead on from and what
they keep, all calls do, whether they succeed or fail.
-/

namespace Whence.Builder

variable {program : Program} {α β : Type} {holds : Program → Prop}
  {leads : Program → Program → Prop} {fits : Program → Next → Prop}

/-- The single changes of which the calls consist all lead on, and what they make of demands and
bodies that fit does so as well.  A demand that refers to others is interned for clauses only, and one
on everything never. -/
structure Lasting (holds : Program → Prop) (leads : Program → Program → Prop)
    (fits : Program → Next → Prop) : Prop extends Course holds leads fits where
  declare : ∀ {program} tag arity datatype, holds program →
    leads program (program.declare tag arity datatype)
  pushExpr : ∀ {program expr}, holds program →
    (∀ demand ∈ expr.demands, fits program (.demand demand)) →
    (∀ part ∈ expr.parts, fits program (.body part)) →
    leads program (program.pushExpr expr).2 ∧
      fits (program.pushExpr expr).2 (.body (program.pushExpr expr).1)
  pushGroup : ∀ {program group}, holds program →
    (∀ entry ∈ group.entries, fits program (.body entry.function)) →
    leads program (program.pushGroup group).2
  internDemand : ∀ {program layer}, holds program →
    layer.Suits False (fun next ↦ fits program next ∧ ∀ demand, next ≠ .demand demand) →
    leads program (program.internDemand layer).2 ∧
      fits (program.internDemand layer).2 (.demand (program.internDemand layer).1)
  compileAll : ∀ {clauses program}, holds program →
    (∀ clause ∈ clauses, fits program (.body clause.body)) →
    Brings leads (Clause.compileAll clauses) program fun demand final ↦ fits final (.demand demand)

/-- The expression that is returned fits, if one is returned. -/
def Answer.Fits (fits : Next → Prop) (answer : Answer) : Prop :=
  ∀ id, answer = .expr id → fits (.body id)

namespace Lasting

variable (hlasting : Lasting holds leads fits) (hprogram : holds program)

include hlasting

theorem answers {step : Builder ExprId}
    (hstep : Brings leads step program fun id final ↦ fits final (.body id)) :
    Brings leads (Answer.expr <$> step) program fun answer final ↦ answer.Fits (fits final) :=
  hlasting.map hstep fun hfits _ hsame ↦ Answer.expr.inj hsame ▸ hfits

/-- Where no expression is returned, none has to fit. -/
theorem answersOther {step : Builder α} {wrap : α → Answer}
    (hstep : Brings leads step program fun _ _ ↦ True) (hwrap : ∀ result id, wrap result ≠ .expr id) :
    Brings leads (wrap <$> step) program fun answer final ↦ answer.Fits (fits final) :=
  hlasting.map hstep fun {result _} _ id hsame ↦ absurd hsame (hwrap result id)

/-- An expression with a demand is made after its demand. -/
theorem demanding {step : Builder DemandId} {wrap : DemandId → Expr}
    (hstep : Brings leads step program fun demand final ↦ fits final (.demand demand))
    (hwrap : ∀ demand, (wrap demand).demands = [demand])
    (hparts : ∀ demand, ∀ part ∈ (wrap demand).parts, fits program (.body part)) :
    Brings leads (do let demand ← step; Builder.pushExpr (wrap demand)) program
      fun id final ↦ fits final (.body id) := by
  refine hlasting.bind hstep fun {demand middle} hmiddle hfits ↦
    hlasting.pushExpr (hlasting.kept hmiddle) ?_
      fun part hpart ↦ hlasting.stays hmiddle (hparts demand part hpart)
  rw [hwrap]
  exact List.forall_mem_singleton.2 hfits

include hprogram

theorem push {expr : Expr} (hdemands : expr.demands = [])
    (hparts : ∀ part ∈ expr.parts, fits program (.body part)) :
    Brings leads (Builder.pushExpr expr) program fun id final ↦ fits final (.body id) :=
  hlasting.pushExpr hprogram (by simp [hdemands]) hparts

/-- An expression with a name is made after the name. -/
theorem named {wrap : Symbol → Expr} (name : String) (hdemands : ∀ symbol, (wrap symbol).demands = [])
    (hparts : ∀ symbol, ∀ part ∈ (wrap symbol).parts, fits program (.body part)) :
    Brings leads (do let symbol ← Builder.intern name; Builder.pushExpr (wrap symbol)) program
      fun id final ↦ fits final (.body id) :=
  hlasting.bind (hlasting.internName hprogram name) fun hmiddle _ ↦
    hlasting.push (hlasting.kept hmiddle) (hdemands _)
      fun part hpart ↦ hlasting.stays hmiddle (hparts _ part hpart)

theorem list {items : List ExprId} (hitems : ∀ item ∈ items, fits program (.body item)) :
    Brings leads (Builder.list items) program fun id final ↦ fits final (.body id) := by
  refine hlasting.bind (hlasting.push hprogram rfl (by simp [Expr.parts])) fun hmiddle hnil ↦
    hlasting.foldlM (hlasting.kept hmiddle) (fun hitem hlater htail ↦ ?_) hnil
  have hhead := hlasting.stays (hlasting.trans hmiddle hlater) (hitems _ (List.mem_reverse.1 hitem))
  exact hlasting.push (hlasting.kept hlater) rfl (by simp [Expr.parts, hhead, htail])

theorem group {entries : List (String × ExprId)}
    (hentries : ∀ id ∈ entries.map Prod.snd, fits program (.body id)) :
    Brings leads (Builder.group entries) program fun _ _ ↦ True := by
  have hentry : ∀ {entry : String × ExprId} {middle : Program}, entry ∈ entries →
      leads program middle →
      Brings leads (do let symbol ← intern entry.1; pure (GroupEntry.mk symbol entry.2)) middle
        fun entry final ↦ fits final (.body entry.function) := by
    intro entry middle hmem hmiddle
    have hfunction := hlasting.stays hmiddle (hentries _ (List.mem_map_of_mem hmem))
    exact hlasting.bind (hlasting.internName (hlasting.kept hmiddle) entry.1) fun hlast _ ↦
      hlasting.of_pure (hlasting.kept hlast) (hlasting.stays hlast hfunction)
  exact hlasting.bind (hlasting.mapM hprogram hentry hlasting.stays) fun hmiddle hfits ↦
    ⟨hlasting.pushGroup (hlasting.kept hmiddle) hfits, trivial⟩

theorem call (call : Call) (hgiven : ∀ id ∈ call.given, fits program (.body id)) :
    Brings leads call.answer program fun answer final ↦ answer.Fits (fits final) := by
  cases call with
  | declare tag arity datatype =>
    exact hlasting.answersOther ⟨hlasting.declare tag arity datatype hprogram, trivial⟩ nofun
  | number value => exact hlasting.answers (hlasting.push hprogram rfl hgiven)
  | text value => exact hlasting.answers (hlasting.push hprogram rfl hgiven)
  | var name => exact hlasting.answers (hlasting.named hprogram name (fun _ ↦ rfl) fun _ ↦ hgiven)
  | op name => exact hlasting.answers (hlasting.named hprogram name (fun _ ↦ rfl) fun _ ↦ hgiven)
  | constructor tag args =>
    exact hlasting.answers (hlasting.bind (hlasting.constructorOf hprogram tag _) fun hmiddle _ ↦
      hlasting.push (hlasting.kept hmiddle) rfl
        fun part hpart ↦ hlasting.stays hmiddle (hgiven part hpart))
  | nil => exact hlasting.answers (hlasting.push hprogram rfl hgiven)
  | cons head tail => exact hlasting.answers (hlasting.push hprogram rfl hgiven)
  | pair first second => exact hlasting.answers (hlasting.push hprogram rfl hgiven)
  | boolean value => exact hlasting.answers (hlasting.push hprogram rfl hgiven)
  | list items => exact hlasting.answers (hlasting.list hprogram hgiven)
  | numbers values =>
    have hnumber : ∀ {value : Number} {middle : Program}, value ∈ values → leads program middle →
        Brings leads (Builder.number value) middle fun id final ↦ fits final (.body id) :=
      fun _ hmiddle ↦ hlasting.push (hlasting.kept hmiddle) rfl nofun
    exact hlasting.answers (hlasting.bind (hlasting.mapM hprogram hnumber hlasting.stays)
      fun hmiddle hitems ↦ hlasting.list (hlasting.kept hmiddle) hitems)
  | app function argument => exact hlasting.answers (hlasting.push hprogram rfl hgiven)
  | apply function arguments =>
    obtain ⟨hfunction, harguments⟩ := List.forall_mem_cons.1 hgiven
    refine hlasting.answers (hlasting.foldlM hprogram (fun hitem hmiddle happlied ↦ ?_) hfunction)
    have hargument := hlasting.stays hmiddle (harguments _ hitem)
    exact hlasting.push (hlasting.kept hmiddle) rfl (by simp [Expr.parts, happlied, hargument])
  | binary left name right =>
    obtain ⟨hleft, hright⟩ := List.forall_mem_cons.1 hgiven
    exact hlasting.answers (hlasting.bind
      (hlasting.named hprogram name (fun _ ↦ rfl) (by simp [Expr.parts])) fun hfirst hop ↦
      hlasting.bind (hlasting.push (hlasting.kept hfirst) rfl
        (by simp [Expr.parts, hop, hlasting.stays hfirst hleft])) fun hsecond hpartial ↦
      hlasting.push (hlasting.kept hsecond) rfl (by
        have hright' := hlasting.stays (hlasting.trans hfirst hsecond)
          (hright right (List.mem_singleton_self _))
        simp [Expr.parts, hpartial, hright']))
  | lambda name body =>
    have hbody := hgiven body (List.mem_singleton_self _)
    exact hlasting.answers (hlasting.bind (hlasting.internName hprogram name) fun hmiddle _ ↦
      hlasting.demanding (hlasting.internDemand (hlasting.kept hmiddle)
        ⟨nofun, by simp [Demand.nexts, hlasting.stays hmiddle hbody]⟩) (fun _ ↦ rfl)
        (by simp [Expr.parts]))
  | function clauses =>
    exact hlasting.answers (hlasting.demanding
      (hlasting.compileAll hprogram fun clause hclause ↦ hgiven _ (List.mem_map_of_mem hclause))
      (fun _ ↦ rfl) (by simp [Expr.parts]))
  | matching scrutinee clauses =>
    obtain ⟨hscrutinee, hbodies⟩ := List.forall_mem_cons.1 hgiven
    exact hlasting.answers (hlasting.demanding
      (hlasting.compileAll hprogram fun clause hclause ↦ hbodies _ (List.mem_map_of_mem hclause))
      (fun _ ↦ rfl) (by simp [Expr.parts, hscrutinee]))
  | ifThenElse condition yes no =>
    simp only [Call.given, List.forall_mem_cons] at hgiven
    exact hlasting.answers (hlasting.demanding
      (hlasting.internDemand hprogram ⟨nofun, by simp [Demand.nexts, hgiven]⟩) (fun _ ↦ rfl)
      (by simp [Expr.parts, hgiven]))
  | letIn name bound body =>
    exact hlasting.answers (hlasting.named hprogram name (fun _ ↦ rfl) fun _ ↦ hgiven)
  | group entries =>
    exact hlasting.answersOther (hlasting.group hprogram hgiven) nofun
  | letRec entries body =>
    obtain ⟨hentries, hbody⟩ := List.forall_mem_append.1 hgiven
    exact hlasting.answers (hlasting.bind (hlasting.group hprogram hentries) fun hmiddle _ ↦
      hlasting.push (hlasting.kept hmiddle) rfl
        fun part hpart ↦ hlasting.stays hmiddle (hbody part hpart))
  | defineValue name bound =>
    exact hlasting.answersOther (hlasting.bind (hlasting.internName hprogram name) fun hmiddle _ ↦
      hlasting.of_pure (hlasting.kept hmiddle) trivial) nofun
  | definePrimitive name op =>
    exact hlasting.answersOther (hlasting.bind (hlasting.internName hprogram name) fun hmiddle _ ↦
      hlasting.bind (hlasting.internName (hlasting.kept hmiddle) op) fun hlast _ ↦
      hlasting.of_pure (hlasting.kept hlast) trivial) nofun
  | defineGroup entries =>
    exact hlasting.answersOther (hlasting.bind (hlasting.group hprogram hgiven) fun hmiddle _ ↦
      hlasting.of_pure (hlasting.kept hmiddle) trivial) nofun
  | defs definitions body => exact hlasting.answers (hlasting.push hprogram rfl hgiven)

theorem run {call : Call} (hgiven : ∀ id ∈ call.given, fits program (.body id)) :
    Brings leads call.run program fun _ _ ↦ True := by
  rw [call.run_eq]
  exact hlasting.discard (hlasting.call hprogram call hgiven)

end Lasting

theorem leads_outcome {step : Builder α} {done : α → Program → Prop}
    (hbrings : Brings leads step program done) : leads program (outcome step program).2 := by
  unfold outcome EStateM.run
  cases hstep : step program with
  | ok result final => exact (Stops.ok hbrings hstep).1
  | error error final => exact Stops.error hbrings hstep

/-- The step keeps what holds of the program, whether it succeeds or fails. -/
def Keeps (holds : Program → Prop) (step : Builder α) : Prop :=
  ∀ program : Program, holds program → holds (outcome step program).2

theorem Keeps.brings {step : Builder α} (hstep : Keeps holds step) (hprogram : holds program) :
    Brings (fun _ final ↦ holds final) step program fun _ _ ↦ True := by
  have hfinal := hstep program hprogram
  unfold outcome EStateM.run at hfinal
  refine Stops.of_run (fun hrun ↦ ?_) fun hrun ↦ ?_
  · rw [hrun] at hfinal
    exact ⟨hfinal, trivial⟩
  · rw [hrun] at hfinal
    exact hfinal

/-- What holds of the program lasts through the single changes of which the calls consist.  A demand
that refers to others is interned for clauses only. -/
structure Lasts (holds : Program → Prop) : Prop where
  intern : ∀ name, Keeps holds (Builder.intern name)
  declare : ∀ tag arity datatype, Keeps holds (Builder.declare tag arity datatype)
  pushExpr : ∀ expr, Keeps holds (Builder.pushExpr expr)
  pushGroup : ∀ group, Keeps holds (Builder.pushGroup group)
  internDemand : ∀ layer : Demand, (∀ demand, .demand demand ∉ layer.nexts) →
    Keeps holds (Builder.internDemand layer)
  compileAll : ∀ clauses, Keeps holds (Clause.compileAll clauses)

theorem Lasts.lasting (hlasts : Lasts holds) :
    Lasting holds (fun _ final ↦ holds final) fun _ _ ↦ True where
  refl hprogram := hprogram
  trans _ hfinal := hfinal
  kept hfinal := hfinal
  stays _ _ := trivial
  intern name hprogram := hlasts.intern name _ hprogram
  declare tag arity datatype hprogram := hlasts.declare tag arity datatype _ hprogram
  pushExpr hprogram _ _ := ⟨hlasts.pushExpr _ _ hprogram, trivial⟩
  pushGroup hprogram _ := hlasts.pushGroup _ _ hprogram
  internDemand hprogram hsuits :=
    ⟨hlasts.internDemand _ (fun demand hmem ↦ (hsuits.2 _ hmem).2 demand rfl) _ hprogram, trivial⟩
  compileAll hprogram _ := (hlasts.compileAll _).brings hprogram

theorem Lasts.call (hlasts : Lasts holds) (call : Call) : Keeps holds call.run :=
  fun _ hprogram ↦ leads_outcome (hlasts.lasting.run hprogram fun _ _ ↦ trivial)

end Whence.Builder
