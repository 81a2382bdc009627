import Whence.Proofs.Calls.Basic

/-!
# Courses of the builder

The steps of the builder lead from program to program.  Compiling clauses is gone through here, for
every way in which programs may be related with one another and with the demands and bodies that are
compiled.
-/

namespace Whence

variable {program : Program} {α β : Type}

/-- The continuations of a layer. -/
def Demand.nexts : Demand → List Next
  | .bind _ next | .number next | .text next | .function next | .everything next => [next]
  | .constructor cases => cases.map Prod.snd

/-- All that follows the layer is as said, and the layer is on everything only if that is allowed. -/
def Demand.Suits (layer : Demand) (whole : Prop) (fits : Next → Prop) : Prop :=
  (∀ next, layer = .everything next → whole) ∧ ∀ next ∈ layer.nexts, fits next

/-- The demand of an expression, if it has one. -/
def Expr.demands : Expr → List DemandId
  | .function demand | .matching _ demand => [demand]
  | _ => []

theorem Demand.Suits.next {layer : Demand} {whole : Prop} {fits : Next → Prop} {next : Next}
    (hsuits : layer.Suits whole fits) (hnexts : layer.nexts = [next]) : fits next :=
  hsuits.2 next (by rw [hnexts]; exact List.mem_singleton_self _)

namespace Builder

variable {holds : Program → Prop} {leads : Program → Program → Prop} {fits : Program → Next → Prop}

/-- The step leads from the program to another one, and its result is as said if it succeeds. -/
def Brings (leads : Program → Program → Prop) (step : Builder α) (program : Program)
    (done : α → Program → Prop) : Prop :=
  Stops step program (fun result final ↦ leads program final ∧ done result final) (leads program)

/-- Steps lead on from programs of some kind to programs of that kind, and a demand or a body that
fits a program fits those it leads to. -/
structure Course (holds : Program → Prop) (leads : Program → Program → Prop)
    (fits : Program → Next → Prop) : Prop where
  refl : ∀ {program}, holds program → leads program program
  trans : ∀ {program middle final}, leads program middle → leads middle final →
    leads program final
  kept : ∀ {program final}, leads program final → holds final
  stays : ∀ {program final next}, leads program final → fits program next → fits final next
  intern : ∀ {program} name, holds program → leads program (program.intern name).2

namespace Course

/-- Reading the program changes nothing. -/
theorem of_get {next : Program → Builder α} {done : α → Program → Prop}
    (hnext : Brings leads (next program) program done) :
    Brings leads (get >>= next) program done :=
  hnext

section Steps

variable (hcourse : Course holds leads fits) {done : α → Program → Prop}
include hcourse

theorem bind {step : Builder α} {next : α → Builder β} {done' : β → Program → Prop}
    (hfirst : Brings leads step program done)
    (hsecond : ∀ {result middle}, leads program middle → done result middle →
      Brings leads (next result) middle done') : Brings leads (step >>= next) program done' := by
  refine Stops.bind hfirst (fun {result middle} hmiddle ↦ ?_) id
  exact Stops.mono (hsecond hmiddle.1 hmiddle.2) (And.imp_left (hcourse.trans hmiddle.1))
    (hcourse.trans hmiddle.1)

theorem map {step : Builder α} {f : α → β} {done' : β → Program → Prop}
    (hstep : Brings leads step program done)
    (hdone : ∀ {result final}, done result final → done' (f result) final) :
    Brings leads (f <$> step) program done' := by
  rw [map_eq_pure_bind]
  exact hcourse.bind hstep fun hmiddle hresult ↦
    ⟨hcourse.refl (hcourse.kept hmiddle), hdone hresult⟩

theorem discard {step : Builder α} (hstep : Brings leads step program done) :
    Brings leads (Functor.discard step) program fun _ _ ↦ True :=
  hcourse.map hstep fun _ ↦ trivial

variable (hprogram : holds program)
include hprogram

theorem of_pure {result : α} (hdone : done result program) :
    Brings leads (pure result) program done :=
  ⟨hcourse.refl hprogram, hdone⟩

theorem of_throw (error : Error) : Brings leads (throw error : Builder α) program done :=
  hcourse.refl hprogram

/-- Each item of a loop meets a program to which the first one has led. -/
theorem foldlM {step : β → α → Builder β} {done : β → Program → Prop} {items : List α}
    (hstep : ∀ {state item middle}, item ∈ items → leads program middle → done state middle →
      Brings leads (step state item) middle done)
    {start : β} (hstart : done start program) :
    Brings leads (items.foldlM step start) program done := by
  induction items generalizing start program with
  | nil => exact hcourse.of_pure hprogram hstart
  | cons item items ih =>
    rw [List.foldlM_cons]
    exact hcourse.bind (hstep List.mem_cons_self (hcourse.refl hprogram) hstart)
      fun hmiddle hstate ↦ ih (hcourse.kept hmiddle)
        (fun hitem hlater ↦ hstep (List.mem_cons_of_mem _ hitem) (hcourse.trans hmiddle hlater))
        hstate

theorem mapM {step : α → Builder β} {done : β → Program → Prop} {items : List α}
    (hstep : ∀ {item middle}, item ∈ items → leads program middle →
      Brings leads (step item) middle done)
    (hstays : ∀ {result program final}, leads program final → done result program →
      done result final) :
    Brings leads (items.mapM step) program
      fun results final ↦ ∀ result ∈ results, done result final := by
  induction items generalizing program with
  | nil => exact hcourse.of_pure hprogram (by simp)
  | cons item items ih =>
    rw [List.mapM_cons]
    refine hcourse.bind (hstep List.mem_cons_self (hcourse.refl hprogram)) fun hmiddle hfirst ↦ ?_
    have hrest := ih (hcourse.kept hmiddle) fun hitem hlater ↦
      hstep (List.mem_cons_of_mem _ hitem) (hcourse.trans hmiddle hlater)
    refine hcourse.bind hrest fun hfinal hrest ↦ ?_
    exact hcourse.of_pure (hcourse.kept hfinal) (List.forall_mem_cons.2 ⟨hstays hfinal hfirst, hrest⟩)

theorem internName (name : String) :
    Brings leads (Builder.intern name) program fun _ _ ↦ True :=
  ⟨hcourse.intern name hprogram, trivial⟩

theorem constructorOf (tag : String) (count : Nat) :
    Brings leads (Builder.constructorOf tag count) program fun _ _ ↦ True := by
  refine of_get ?_
  split
  · exact hcourse.of_throw hprogram _
  · split
    · exact hcourse.of_pure hprogram trivial
    · exact hcourse.of_throw hprogram _

end Steps

section Compiling

variable {whole : Prop}

mutual

/-- The demand for a pattern fits if what follows it does. -/
theorem compile (hcourse : Course holds leads fits)
    (hdemand : ∀ {program layer}, holds program → layer.Suits whole (fits program) →
      leads program (program.internDemand layer).2 ∧
        fits (program.internDemand layer).2 (.demand (program.internDemand layer).1))
    (pattern : Pattern) {program : Program} (hprogram : holds program) {next : Next}
    (hnext : fits program next) :
    Brings leads (pattern.compile next) program fun demand final ↦ fits final (.demand demand) := by
  have hone : ∀ {layer : Demand} {middle : Program}, leads program middle →
      layer.nexts = [next] → (∀ next, layer ≠ .everything next) →
      Brings leads (Builder.internDemand layer) middle
        fun demand final ↦ fits final (.demand demand) := by
    refine fun hmiddle hnexts hlayer ↦ hdemand (hcourse.kept hmiddle)
      ⟨fun next hsame ↦ absurd hsame (hlayer next), ?_⟩
    rw [hnexts]
    exact List.forall_mem_singleton.2 (hcourse.stays hmiddle hnext)
  cases pattern with
  | bind name =>
    exact hcourse.bind (hcourse.internName hprogram name) fun hmiddle _ ↦ hone hmiddle rfl nofun
  | wild =>
    exact hcourse.bind (hcourse.internName hprogram "_") fun hmiddle _ ↦ hone hmiddle rfl nofun
  | number => exact hone (hcourse.refl hprogram) rfl nofun
  | text => exact hone (hcourse.refl hprogram) rfl nofun
  | function => exact hone (hcourse.refl hprogram) rfl nofun
  | constructor tag args =>
    exact hcourse.bind (hcourse.constructorOf hprogram tag args.length) fun hmiddle _ ↦
      hcourse.bind (compileArgs hcourse hdemand args (hcourse.kept hmiddle)
        (hcourse.stays hmiddle hnext)) fun hlast hfirst ↦
      hdemand (hcourse.kept hlast) ⟨nofun, List.forall_mem_singleton.2 hfirst⟩

theorem compileArgs (hcourse : Course holds leads fits)
    (hdemand : ∀ {program layer}, holds program → layer.Suits whole (fits program) →
      leads program (program.internDemand layer).2 ∧
        fits (program.internDemand layer).2 (.demand (program.internDemand layer).1))
    (patterns : List Pattern) {program : Program} (hprogram : holds program) {next : Next}
    (hnext : fits program next) :
    Brings leads (Pattern.compileArgs patterns next) program fun next final ↦ fits final next := by
  cases patterns with
  | nil => exact hcourse.of_pure hprogram hnext
  | cons arg args =>
    exact hcourse.bind (compileArgs hcourse hdemand args hprogram hnext) fun hmiddle hfollowing ↦
      hcourse.bind (compile hcourse hdemand arg (hcourse.kept hmiddle) hfollowing) fun hlast hfits ↦
      hcourse.of_pure (hcourse.kept hlast) hfits

end

variable (hcourse : Course holds leads fits)
include hcourse

section Joining

variable {join : DemandId → DemandId → Builder DemandId}
  (hjoin : ∀ {program left right}, holds program → fits program (.demand left) →
    fits program (.demand right) →
    Brings leads (join left right) program fun demand final ↦ fits final (.demand demand))
  (hprogram : holds program)

include hjoin hprogram

theorem joinNext {left right : Next} (hleft : fits program left) (hright : fits program right) :
    Brings leads (Demand.joinNext join left right) program fun next final ↦ fits final next := by
  unfold Demand.joinNext
  split
  · exact hcourse.bind (hjoin hprogram hleft hright) fun hmiddle hfits ↦
      hcourse.of_pure (hcourse.kept hmiddle) hfits
  · exact hcourse.of_throw hprogram _

theorem joinCases {others cases : List (Symbol × Next)}
    (hothers : ∀ next ∈ others.map Prod.snd, fits program next)
    (hcases : ∀ next ∈ cases.map Prod.snd, fits program next) :
    Brings leads (Demand.joinCases (Demand.joinNext join) cases others) program
      fun joined final ↦ ∀ next ∈ joined.map Prod.snd, fits final next := by
  induction others generalizing cases program with
  | nil => exact hcourse.of_pure hprogram hcases
  | cons other others ih =>
    obtain ⟨tag, next⟩ := other
    obtain ⟨hnext, hrest⟩ := List.forall_mem_cons.1 hothers
    unfold Demand.joinCases
    split
    · refine ih hprogram hrest fun next hmem ↦ ?_
      rw [List.map_append, List.mem_append] at hmem
      obtain hmem | hmem := hmem
      · exact hcases next hmem
      · cases List.mem_singleton.1 hmem
        exact hnext
    case h_2 present hlookup =>
      have hpresent : fits program present := by
        rw [List.lookup_eq_some_iff] at hlookup
        obtain ⟨before, after, hcases', -⟩ := hlookup
        exact hcases present (by simp [hcases'])
      refine hcourse.bind (hcourse.joinNext hjoin hprogram hpresent hnext) fun hmiddle hjoined ↦
        ih (hcourse.kept hmiddle) (fun next hmem ↦ hcourse.stays hmiddle (hrest next hmem))
          fun next hmem ↦ ?_
      rw [List.map_map, List.mem_map] at hmem
      obtain ⟨case, hcase, rfl⟩ := hmem
      dsimp only [Function.comp_apply]
      split
      · exact hjoined
      · exact hcourse.stays hmiddle (hcases _ (List.mem_map_of_mem hcase))

theorem joinLayer {left right : Demand} (hleft : left.Suits whole (fits program))
    (hright : right.Suits whole (fits program)) :
    Brings leads (Demand.joinLayer (Demand.joinNext join) left right) program
      fun layer final ↦ layer.Suits whole (fits final) := by
  have hone : ∀ {next other : Next} (wrap : Next → Demand), left.nexts = [next] →
      right.nexts = [other] → (∀ next, (wrap next).nexts = [next]) →
      (∀ next following, wrap next = .everything following → whole) →
      Brings leads (wrap <$> Demand.joinNext join next other) program
        fun layer final ↦ layer.Suits whole (fits final) := by
    intro next other wrap hnext hother hnexts hwhole
    refine hcourse.map (hcourse.joinNext hjoin hprogram (hleft.next hnext) (hright.next hother))
      fun {joined _} hjoined ↦ ⟨hwhole joined, ?_⟩
    rw [hnexts]
    exact List.forall_mem_singleton.2 hjoined
  unfold Demand.joinLayer
  split
  case h_1 =>
    exact hcourse.map (hcourse.joinCases hjoin hprogram hright.2 hleft.2) fun hjoined ↦
      ⟨nofun, hjoined⟩
  case h_2 =>
    split
    · exact hone (.bind _) rfl rfl (fun _ ↦ rfl) nofun
    · exact hcourse.of_throw hprogram _
  case h_3 => exact hone .number rfl rfl (fun _ ↦ rfl) nofun
  case h_4 => exact hone .text rfl rfl (fun _ ↦ rfl) nofun
  case h_5 => exact hone .function rfl rfl (fun _ ↦ rfl) nofun
  case h_6 => exact hone .everything rfl rfl (fun _ ↦ rfl) fun _ _ _ ↦ hleft.1 _ rfl
  case h_7 => exact hcourse.of_throw hprogram _

end Joining

variable
  (hdemand : ∀ {program layer}, holds program → layer.Suits whole (fits program) →
    leads program (program.internDemand layer).2 ∧
      fits (program.internDemand layer).2 (.demand (program.internDemand layer).1))
  (hlayer : ∀ {program demand}, holds program → fits program (.demand demand) →
    (program.demand demand).Suits whole (fits program))
include hdemand hlayer

theorem joinLayers (layers : Nat) {program : Program} (hprogram : holds program)
    {left right : DemandId} (hleft : fits program (.demand left))
    (hright : fits program (.demand right)) :
    Brings leads (Demand.joinLayers layers left right) program
      fun demand final ↦ fits final (.demand demand) := by
  induction layers generalizing program left right with
  | zero => exact hcourse.of_throw hprogram _
  | succ layers ih =>
    unfold Demand.joinLayers
    split
    · exact hcourse.of_pure hprogram hleft
    · have hjoined := hcourse.joinLayer (fun hprogram hleft hright ↦ ih hprogram hleft hright)
        hprogram (hlayer hprogram hleft) (hlayer hprogram hright)
      exact of_get (hcourse.bind hjoined fun hmiddle hsuits ↦ hdemand (hcourse.kept hmiddle) hsuits)

theorem compileAll {clauses : List Clause} {program : Program} (hprogram : holds program)
    (hbodies : ∀ clause ∈ clauses, fits program (.body clause.body)) :
    Brings leads (Clause.compileAll clauses) program
      fun demand final ↦ fits final (.demand demand) := by
  have hclause : ∀ {clause : Clause} {middle : Program}, clause ∈ clauses → leads program middle →
      Brings leads clause.compile middle fun demand final ↦ fits final (.demand demand) :=
    fun {clause _} hmem hmiddle ↦ hcourse.compile hdemand clause.pattern (hcourse.kept hmiddle)
      (hcourse.stays hmiddle (hbodies clause hmem))
  cases clauses with
  | nil => exact hcourse.of_throw hprogram _
  | cons clause clauses =>
    refine hcourse.bind (hclause List.mem_cons_self (hcourse.refl hprogram)) fun hfirst hfits ↦
      hcourse.foldlM (hcourse.kept hfirst) (fun hmem hmiddle hjoined ↦ ?_) hfits
    exact hcourse.bind (hclause (List.mem_cons_of_mem _ hmem) (hcourse.trans hfirst hmiddle))
      fun hlast hnext ↦ hcourse.joinLayers hdemand hlayer _ (hcourse.kept hlast)
        (hcourse.stays hlast hjoined) hnext

end Compiling

end Course

end Builder

end Whence
