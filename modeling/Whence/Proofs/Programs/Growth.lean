import Whence.Proofs.Clauses.Correctness

/-!
# Programs that only grow

A call of the builder adds to the tables of a program and takes nothing from them.  What it adds
refers to what the program has by then, or to an expression that the call was given.
-/

namespace Whence

section Tables

variable {α : Type} {items middle later : Array α} {suits suits' : Nat → α → Prop}

/-- All items are where they were. -/
def StaysIn (items later : Array α) : Prop :=
  ∀ (index : Nat) (item : α), items[index]? = some item → later[index]? = some item

theorem StaysIn.refl (items : Array α) : StaysIn items items := fun _ _ hitem ↦ hitem

theorem StaysIn.trans (hfirst : StaysIn items middle) (hsecond : StaysIn middle later) :
    StaysIn items later :=
  fun _ _ hitem ↦ hsecond _ _ (hfirst _ _ hitem)

theorem StaysIn.push (items : Array α) (item : α) : StaysIn items (items.push item) := by
  intro index other hother
  have hlt := (Array.getElem?_eq_some_iff.1 hother).1
  rw [Array.getElem?_push_lt hlt, ← Array.getElem?_eq_getElem hlt, hother]

theorem StaysIn.size_le (hstays : StaysIn items later) : items.size ≤ later.size := by
  refine Nat.le_of_not_lt fun hlt ↦ ?_
  have hlast := hstays later.size items[later.size] (Array.getElem?_eq_getElem hlt)
  rw [Array.getElem?_eq_none (Nat.le_refl _)] at hlast
  cases hlast

/-- All items are where they were, and those that were added are as said. -/
structure AddedTo (items later : Array α) (suits : Nat → α → Prop) : Prop where
  stays : StaysIn items later
  added : ∀ {index : Nat} {item : α}, items.size ≤ index → later[index]? = some item → suits index item

theorem AddedTo.refl (items : Array α) (suits : Nat → α → Prop) : AddedTo items items suits where
  stays := .refl items
  added hindex hitem := absurd (Array.getElem?_eq_some_iff.1 hitem).1 (Nat.not_lt.2 hindex)

theorem AddedTo.push {item : α} (hitem : suits items.size item) :
    AddedTo items (items.push item) suits where
  stays := .push items item
  added {index other} hindex hother := by
    rw [Array.getElem?_push] at hother
    split at hother
    case isTrue hlast =>
      cases hother
      exact hlast ▸ hitem
    case isFalse => exact absurd (Array.getElem?_eq_some_iff.1 hother).1 (Nat.not_lt.2 hindex)

theorem AddedTo.trans (hfirst : AddedTo items middle suits) (hsecond : AddedTo middle later suits')
    (hsuits : ∀ {index item}, suits index item → suits' index item) :
    AddedTo items later suits' where
  stays := hfirst.stays.trans hsecond.stays
  added {index item} hindex hitem := by
    obtain hold | hnew := Nat.lt_or_ge index middle.size
    · have hmiddle := Array.getElem?_eq_getElem hold
      cases (hsecond.stays _ _ hmiddle).symm.trans hitem
      exact hsuits (hfirst.added hindex hmiddle)
    · exact hsecond.added hnew hitem

end Tables

namespace SymbolTable

variable {table : SymbolTable}

/-- The table finds each place by its name. -/
def Numbered (table : SymbolTable) : Prop :=
  ∀ symbol name, table.names[Symbol.index symbol]? = some name → table.symbol? name = some symbol

theorem Numbered.empty : SymbolTable.empty.Numbered := by
  intro symbol name hname
  simp [SymbolTable.empty] at hname

theorem Numbered.intern (hnumbered : table.Numbered) (name : String) :
    (table.intern name).2.Numbered := by
  cases hname : table.symbol? name with
  | some known =>
    simp only [SymbolTable.intern, hname]
    exact hnumbered
  | none =>
    simp only [SymbolTable.intern, hname]
    intro symbol other hother
    rw [Array.getElem?_push] at hother
    rw [symbol?, Std.HashMap.getElem?_insert]
    split at hother
    case isTrue hlast =>
      cases hother
      simp [← hlast]
    case isFalse =>
      have hknown := hnumbered symbol other hother
      have hne : name ≠ other := by
        rintro rfl
        rw [hname] at hknown
        cases hknown
      rw [if_neg (by simpa using hne)]
      exact hknown

theorem Numbered.internAll (hnumbered : table.Numbered) (names : List String) :
    (table.internAll names).Numbered :=
  names.foldlRecOn _ hnumbered fun _ hnumbered _ _ ↦ hnumbered.intern _

theorem names_intern (table : SymbolTable) (name : String) :
    StaysIn table.names (table.intern name).2.names := by
  unfold SymbolTable.intern
  split
  · exact .refl _
  · exact .push _ _

end SymbolTable

namespace Program

variable {program middle final : Program} {strange : ExprId → Prop} {next : Next} {layer : Demand}

/-- Every expression, demand, group and name is the one it was. -/
structure RetainedBy (program final : Program) : Prop where
  exprs : StaysIn program.exprs final.exprs
  demands : StaysIn program.demands final.demands
  groups : StaysIn program.groups final.groups
  names : StaysIn program.symbols.names final.symbols.names

/-- The program has the expression, unless it is a strange one. -/
def Knows (program : Program) (strange : ExprId → Prop) (id : ExprId) : Prop :=
  id.index < program.exprs.size ∨ strange id

/-- The program has all demands and bodies to which this leads, apart from strange bodies.  Joining
takes bodies out of demands that are there already, so that demands are followed to their ends. -/
inductive Closed (program : Program) (strange : ExprId → Prop) : Next → Prop
  | done : Closed program strange .done
  | body {id : ExprId} (hbody : program.Knows strange id) : Closed program strange (.body id)
  | demand {demand : DemandId} {layer : Demand}
      (hlayer : program.demands[demand.index]? = some layer)
      (hnexts : ∀ next ∈ layer.nexts, Closed program strange next) :
      Closed program strange (.demand demand)

/-- What has been added refers to what the program has by then, or to strange expressions. -/
structure Adds (strange : ExprId → Prop) (program final : Program) : Prop where
  exprs : AddedTo program.exprs final.exprs fun index expr ↦
    ∀ part ∈ expr.parts, part.index < index ∨ strange part
  demands : AddedTo program.demands final.demands fun _ layer ↦
    ∀ id, .body id ∈ layer.nexts → final.Knows strange id
  groups : AddedTo program.groups final.groups fun _ group ↦
    ∀ id ∈ group.entries.map GroupEntry.function, final.Knows strange id
  names : StaysIn program.symbols.names final.symbols.names

/-- Demands and names are known by their places. -/
structure Canonical (program : Program) : Prop where
  interned : program.Interned
  numbered : program.symbols.Numbered

theorem RetainedBy.refl (program : Program) : program.RetainedBy program :=
  ⟨.refl _, .refl _, .refl _, .refl _⟩

theorem RetainedBy.trans (hfirst : program.RetainedBy middle) (hsecond : middle.RetainedBy final) :
    program.RetainedBy final :=
  ⟨hfirst.exprs.trans hsecond.exprs, hfirst.demands.trans hsecond.demands,
    hfirst.groups.trans hsecond.groups, hfirst.names.trans hsecond.names⟩

theorem Knows.keep {id : ExprId} (hknows : program.Knows strange id)
    (hretained : program.RetainedBy final) : final.Knows strange id :=
  hknows.imp_left fun hlt ↦ Nat.lt_of_lt_of_le hlt hretained.exprs.size_le

theorem Closed.keep (hclosed : program.Closed strange next)
    (hretained : program.RetainedBy final) : final.Closed strange next := by
  induction hclosed with
  | done => exact .done
  | body hbody => exact .body (hbody.keep hretained)
  | demand hlayer _ ih => exact .demand (hretained.demands _ _ hlayer) ih

namespace Adds

theorem retained (hadds : Adds strange program final) : program.RetainedBy final :=
  ⟨hadds.exprs.stays, hadds.demands.stays, hadds.groups.stays, hadds.names⟩

theorem refl (strange : ExprId → Prop) (program : Program) : Adds strange program program :=
  ⟨.refl _ _, .refl _ _, .refl _ _, .refl _⟩

theorem trans (hfirst : Adds strange program middle) (hsecond : Adds strange middle final) :
    Adds strange program final where
  exprs := hfirst.exprs.trans hsecond.exprs id
  demands := hfirst.demands.trans hsecond.demands
    fun hlayer id hbody ↦ (hlayer id hbody).keep hsecond.retained
  groups := hfirst.groups.trans hsecond.groups
    fun hgroup id hid ↦ (hgroup id hid).keep hsecond.retained
  names := hfirst.names.trans hsecond.names

theorem intern (strange : ExprId → Prop) (program : Program) (name : String) :
    Adds strange program (program.intern name).2 :=
  ⟨.refl _ _, .refl _ _, .refl _ _, SymbolTable.names_intern _ name⟩

end Adds

/-- A declaration makes two names known and changes the constructors. -/
theorem declare_eq (program : Program) (tag : String) (arity : Nat) (datatype : String) :
    ∃ constructors, program.declare tag arity datatype =
      { ((program.intern tag).2.intern datatype).2 with constructors } := by
  unfold declare
  dsimp only
  split <;> exact ⟨_, rfl⟩

theorem Adds.declare (strange : ExprId → Prop) (program : Program) (tag : String) (arity : Nat)
    (datatype : String) : Adds strange program (program.declare tag arity datatype) := by
  obtain ⟨constructors, hsame⟩ := program.declare_eq tag arity datatype
  rw [hsame]
  exact ⟨.refl _ _, .refl _ _, .refl _ _,
    ((intern strange program tag).trans (intern strange _ datatype)).names⟩

theorem Adds.pushExpr {expr : Expr} (hparts : ∀ part ∈ expr.parts, program.Knows strange part) :
    Adds strange program (program.pushExpr expr).2 :=
  ⟨.push hparts, .refl _ _, .refl _ _, .refl _⟩

theorem Adds.pushGroup {group : Group}
    (hentries : ∀ entry ∈ group.entries, program.Knows strange entry.function) :
    Adds strange program (program.pushGroup group).2 :=
  ⟨.refl _ _, .refl _ _, .push (List.forall_mem_map.2 hentries), .refl _⟩

theorem Closed.knows {id : ExprId} (hclosed : program.Closed strange (.body id)) :
    program.Knows strange id := by
  cases hclosed with
  | body hbody => exact hbody

/-- What follows a closed demand is closed. -/
theorem Closed.nexts {demand : DemandId} (hclosed : program.Closed strange (.demand demand)) :
    ∀ next ∈ (program.demand demand).nexts, program.Closed strange next := by
  cases hclosed with
  | demand hlayer hnexts =>
    rw [Program.demand, hlayer]
    exact hnexts

namespace Canonical

/-- A name has one symbol, and a symbol has one name. -/
theorem symbol?_eq_some_iff (hcanonical : program.Canonical) {name : String} {symbol : Symbol} :
    program.symbol? name = some symbol ↔
      symbol.index < program.symbols.size ∧ program.name symbol = name := by
  constructor
  · intro hsymbol
    obtain ⟨hlt, hname⟩ := Array.getElem?_eq_some_iff.1 (hcanonical.interned.symbols _ _ hsymbol)
    refine ⟨hlt, ?_⟩
    rw [Program.name, SymbolTable.name, Array.getElem?_eq_getElem hlt, Option.getD_some, hname]
  · rintro ⟨hlt, rfl⟩
    refine hcanonical.numbered symbol _ ?_
    rw [Program.name, SymbolTable.name, Array.getElem?_eq_getElem hlt, Option.getD_some]

theorem intern (hcanonical : program.Canonical) (name : String) :
    (program.intern name).2.Canonical :=
  ⟨hcanonical.interned.intern name, hcanonical.numbered.intern name⟩

theorem declare (hcanonical : program.Canonical) (tag : String) (arity : Nat) (datatype : String) :
    (program.declare tag arity datatype).Canonical := by
  refine ⟨hcanonical.interned.declare tag arity datatype, ?_⟩
  obtain ⟨constructors, hsame⟩ := program.declare_eq tag arity datatype
  rw [hsame]
  exact ((hcanonical.intern tag).intern datatype).numbered

/-- A layer after which all is closed makes a closed demand, whether it is new or not. -/
theorem internDemand (hcanonical : program.Canonical)
    (hnexts : ∀ next ∈ layer.nexts, program.Closed strange next) :
    ((program.internDemand layer).2.Canonical ∧ Adds strange program (program.internDemand layer).2) ∧
      (program.internDemand layer).2.Closed strange (.demand (program.internDemand layer).1) := by
  have hknown : ∀ demand, .demand demand ∈ layer.nexts → demand.index < program.demands.size := by
    intro demand hdemand
    cases hnexts _ hdemand with
    | demand hlayer _ => exact (Array.getElem?_eq_some_iff.1 hlayer).1
  have hfinal : (program.internDemand layer).2.Canonical := by
    refine ⟨hcanonical.interned.internDemand hknown, ?_⟩
    rw [Primed.symbols_internDemand]
    exact hcanonical.numbered
  have hadds : Adds strange program (program.internDemand layer).2 := by
    unfold Program.internDemand
    split
    · exact .refl _ _
    · exact ⟨.refl _ _, .push fun id hbody ↦ (hnexts _ hbody).knows, .refl _ _, .refl _⟩
  have hlayer : (program.internDemand layer).2.demands[(program.internDemand layer).1.index]? =
      some layer := by
    unfold Program.internDemand
    split
    case h_1 id hid => exact hcanonical.interned.demands hid
    case h_2 => exact Array.getElem?_push_size
  exact ⟨⟨hfinal, hadds⟩, .demand hlayer fun next hnext ↦ (hnexts next hnext).keep hadds.retained⟩

end Canonical

end Program

namespace Builder

open Program

theorem Course.adds (strange : ExprId → Prop) : Course Canonical
    (fun program final ↦ final.Canonical ∧ Adds strange program final)
    fun program next ↦ program.Closed strange next where
  refl hcanonical := ⟨hcanonical, .refl strange _⟩
  trans hfirst hsecond := ⟨hsecond.1, hfirst.2.trans hsecond.2⟩
  kept := And.left
  stays hleads hclosed := hclosed.keep hleads.2.retained
  intern name hcanonical := ⟨hcanonical.intern name, .intern strange _ name⟩

/-- Every call adds to the program what refers to what it has or to what the call is given. -/
theorem Lasting.adds (strange : ExprId → Prop) : Lasting Canonical
    (fun program final ↦ final.Canonical ∧ Adds strange program final)
    fun program next ↦ program.Closed strange next where
  toCourse := Course.adds strange
  declare tag arity datatype hcanonical :=
    ⟨hcanonical.declare tag arity datatype, .declare strange _ tag arity datatype⟩
  pushExpr hcanonical _ hparts :=
    ⟨⟨⟨hcanonical.interned.pushExpr _, hcanonical.numbered⟩,
      .pushExpr fun part hpart ↦ (hparts part hpart).knows⟩, .body (.inl (by simp [Program.pushExpr]))⟩
  pushGroup hcanonical hentries :=
    ⟨⟨hcanonical.interned.pushGroup _, hcanonical.numbered⟩,
      .pushGroup fun entry hentry ↦ (hentries entry hentry).knows⟩
  internDemand hcanonical hlayer :=
    hcanonical.internDemand fun next hnext ↦ (hlayer.2 next hnext).1
  compileAll hcanonical hbodies := by
    have hlayer : ∀ {program : Program} {demand : DemandId},
        program.Closed strange (.demand demand) →
        (program.demand demand).Suits True (program.Closed strange) :=
      fun hclosed ↦ ⟨fun _ _ ↦ trivial, hclosed.nexts⟩
    exact (Course.adds strange).compileAll
      (fun hcanonical hsuits ↦ hcanonical.internDemand hsuits.2) (fun _ ↦ hlayer) hcanonical hbodies

end Builder

namespace Program

/-- Names alone are known by their places. -/
theorem Canonical.ofNames (names : List String) :
    Canonical { symbols := SymbolTable.empty.internAll names } where
  interned := by
    refine ⟨Tabled.ofNames names, ?_, ?_, ?_⟩
    · simp
    · simp
    · simp [arity?, constructor?]
  numbered := SymbolTable.Numbered.empty.internAll names

/-- What the initial program has in addition to names refers to nothing but that. -/
theorem initial_adds (strange : ExprId → Prop) : Program.initial.Canonical ∧
    Adds strange { symbols := SymbolTable.empty.internAll initialNames } Program.initial := by
  have hnexts : ∀ layer ∈ initialDemands, ∀ next ∈ layer.nexts, next = .done := by
    simp [initialDemands, Demand.nexts]
  rw [initial_eq]
  generalize initialNames = names
  have hstart := Canonical.ofNames names
  generalize ({ symbols := SymbolTable.empty.internAll names } : Program) = start at hstart ⊢
  refine declareAll_keeps (P := fun program ↦ program.Canonical ∧ Adds strange start program)
    (fun tag arity datatype hprogram ↦ ⟨hprogram.1.declare tag arity datatype,
      hprogram.2.trans (.declare strange _ tag arity datatype)⟩) _
    (internDemands_keeps (P := fun program ↦ program.Canonical ∧ Adds strange start program)
      (fun {program layer} hlayer hprogram ↦ ?_) ⟨hstart, .refl strange _⟩)
  have hclosed : ∀ next ∈ layer.nexts, program.Closed strange next := by
    intro next hnext
    rw [hnexts layer hlayer next hnext]
    exact .done
  obtain ⟨⟨hfinal, hadds⟩, -⟩ := hprogram.1.internDemand hclosed
  exact ⟨hfinal, hprogram.2.trans hadds⟩

end Program

end Whence
