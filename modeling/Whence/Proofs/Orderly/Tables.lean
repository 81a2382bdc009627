import Whence.Proofs.Building

/-!
# The tables of a program

Names, demands and constructors are found in tables.  An interned name or demand is found at its
place, and the number of arguments of a constructor is the one with which it was declared last.  The
constructors that evaluation and the builder make use of themselves are declared from the start.
-/

namespace Whence

namespace SymbolTable

/-- The table finds each name at its place. -/
def Indexed (table : SymbolTable) : Prop :=
  ∀ name symbol, table.symbol? name = some symbol → table.names[symbol.index]? = some name

variable {table : SymbolTable} {name other : String} {symbol : Symbol}

theorem Indexed.empty : SymbolTable.empty.Indexed := by
  intro name symbol hsymbol
  simp [symbol?, SymbolTable.empty] at hsymbol

theorem Indexed.intern (hindexed : table.Indexed) (name : String) :
    (table.intern name).2.Indexed := by
  intro other symbol hsymbol
  cases hname : table.symbol? name with
  | some known =>
    simp only [SymbolTable.intern, hname] at hsymbol ⊢
    exact hindexed other symbol hsymbol
  | none =>
    simp only [SymbolTable.intern, hname] at hsymbol ⊢
    rw [symbol?, Std.HashMap.getElem?_insert] at hsymbol
    split at hsymbol
    case isTrue hsame =>
      cases hsymbol
      simpa using hsame
    case isFalse =>
      have hplace := hindexed other symbol hsymbol
      have hlt := (Array.getElem?_eq_some_iff.1 hplace).1
      rw [Array.getElem?_push, if_neg (Nat.ne_of_lt hlt), hplace]

/-- Different names have different symbols. -/
theorem Indexed.injective (hindexed : table.Indexed) (hname : table.symbol? name = some symbol)
    (hother : table.symbol? other = some symbol) : name = other :=
  Option.some.inj ((hindexed name symbol hname).symm.trans (hindexed other symbol hother))

theorem size_intern_le (table : SymbolTable) (name : String) :
    table.names.size ≤ (table.intern name).2.names.size := by
  unfold intern
  split
  · exact Nat.le_refl _
  · simp

/-- New names get the next places, in order. -/
theorem symbol?_internAll_of_new {names : List String} (hnodup : names.Nodup)
    (hnew : ∀ name ∈ names, table.symbol? name = none) {position : Nat}
    (hposition : names[position]? = some name) :
    (table.internAll names).symbol? name = some ⟨table.names.size + position⟩ := by
  induction names generalizing table position with
  | nil => cases hposition
  | cons first rest ih =>
    obtain ⟨hfirst, hrest⟩ := List.nodup_cons.1 hnodup
    have hnone := hnew first List.mem_cons_self
    cases position with
    | zero =>
      cases hposition
      refine symbol?_internAll_of_some ?_ rest
      rw [symbol?_intern_self]
      simp only [intern, hnone, Nat.add_zero]
    | succ position =>
      have hsize : (table.intern first).2.names.size = table.names.size + 1 := by
        simp [intern, hnone]
      have hlater : ∀ name ∈ rest, (table.intern first).2.symbol? name = none := by
        intro name hname
        have hne : first ≠ name := fun heq ↦ hfirst (heq ▸ hname)
        simp only [intern, hnone]
        rw [symbol?, Std.HashMap.getElem?_insert, if_neg (by simpa using hne)]
        exact hnew name (List.mem_cons_of_mem _ hname)
      have hplaced := ih hrest hlater hposition
      rw [hsize, Nat.add_assoc, Nat.add_comm 1] at hplaced
      exact hplaced

theorem Indexed.internAll (hindexed : table.Indexed) (names : List String) :
    (table.internAll names).Indexed := by
  induction names generalizing table with
  | nil => exact hindexed
  | cons name names ih => exact ih (hindexed.intern name)

end SymbolTable

namespace Program

variable {program : Program} {tag symbol : Symbol} {name : String} {arity : Nat}

/-- The number of arguments with which a constructor is declared. -/
def arity? (program : Program) (tag : Symbol) : Option Nat :=
  (program.constructor? tag).map Constructor.arity

/-- Replacing the constructor with a tag changes what is found for that tag only. -/
theorem find?_replace (constructors : List Constructor) (constructor : Constructor) (tag : Symbol) :
    (constructors.map fun present ↦
      if present.tag == constructor.tag then constructor else present).find? (·.tag == tag) =
        (constructors.find? (·.tag == tag)).map fun present ↦
          if tag = constructor.tag then constructor else present := by
  induction constructors with
  | nil => rfl
  | cons first rest ih =>
    rw [List.map_cons, List.find?_cons, List.find?_cons, ih]
    by_cases hfirst : first.tag = constructor.tag
    · by_cases htag : tag = constructor.tag
      · simp [hfirst, htag]
      · have hother : (constructor.tag == tag) = false := beq_eq_false_iff_ne.2 (Ne.symm htag)
        simp [hfirst, hother]
    · by_cases htag : first.tag = tag
      · have hother : tag ≠ constructor.tag := htag ▸ hfirst
        simp [htag, hother]
      · have hother : (first.tag == tag) = false := beq_eq_false_iff_ne.2 htag
        simp [hfirst, hother]

/-- Declaring a constructor gives its tag the arity and leaves the others as they are. -/
theorem arity?_declare (program : Program) (name : String) (arity : Nat) (datatype : String)
    (tag : Symbol) :
    (program.declare name arity datatype).arity? tag =
      if tag = (program.intern name).1 then some arity else program.arity? tag := by
  have hconstructors : ((program.intern name).2.intern datatype).2.constructors =
      program.constructors := rfl
  unfold declare arity? constructor?
  dsimp only
  rw [hconstructors]
  split
  case isTrue hpresent =>
    have hreplace := find?_replace program.constructors
      ⟨(program.intern name).1, arity, ((program.intern name).2.intern datatype).1⟩ tag
    dsimp only at hreplace ⊢
    rw [hreplace]
    split
    case isTrue htag =>
      subst htag
      obtain ⟨present, hpresent⟩ := Option.isSome_iff_exists.1 hpresent
      rw [hpresent]
      rfl
    case isFalse => simp
  case isFalse hnew =>
    rw [List.find?_append]
    split
    case isTrue htag =>
      subst htag
      rw [Option.not_isSome_iff_eq_none.1 hnew]
      simp
    case isFalse htag => simp [Ne.symm htag]

/-- The tables of the program find what they hold, and only known tags are declared. -/
structure Tabled (program : Program) : Prop where
  demands : ∀ {demand : Demand} {id : DemandId}, program.demandIds[demand]? = some id →
    program.demands[id.index]? = some demand
  symbols : program.symbols.Indexed
  tags : ∀ {tag arity}, program.arity? tag = some arity → tag.index < program.symbols.names.size

theorem Tabled.intern (htabled : program.Tabled) (name : String) :
    (program.intern name).2.Tabled where
  demands := htabled.demands
  symbols := htabled.symbols.intern name
  tags harity := Nat.lt_of_lt_of_le (htabled.tags harity) (SymbolTable.size_intern_le _ _)

theorem Tabled.internDemand (htabled : program.Tabled) (layer : Demand) :
    (program.internDemand layer).2.Tabled := by
  unfold Program.internDemand
  split
  · exact htabled
  · refine ⟨fun {demand id} hid ↦ ?_, htabled.symbols, htabled.tags⟩
    rw [Std.HashMap.getElem?_insert] at hid
    split at hid
    case isTrue hsame =>
      cases hid
      simpa using hsame
    case isFalse =>
      have hold := htabled.demands hid
      rw [Array.getElem?_push, if_neg (Nat.ne_of_lt (Array.getElem?_eq_some_iff.1 hold).1), hold]

/-- An interned demand is found under its number. -/
theorem Tabled.demand_internDemand (htabled : program.Tabled) (layer : Demand) :
    (program.internDemand layer).2.demand (program.internDemand layer).1 = layer := by
  unfold Program.internDemand
  split
  case h_1 id hid => simp [Program.demand, htabled.demands hid]
  case h_2 => simp [Program.demand]

theorem Tabled.declare (htabled : program.Tabled) (name : String) (arity : Nat) (datatype : String) :
    (program.declare name arity datatype).Tabled := by
  have hinterned := (htabled.intern name).intern datatype
  have hsymbols : (program.declare name arity datatype).symbols =
      ((program.intern name).2.intern datatype).2.symbols := by
    unfold Program.declare
    dsimp only
    split <;> rfl
  refine ⟨?_, by rw [hsymbols]; exact hinterned.symbols, fun {tag arity'} harity ↦ ?_⟩
  · unfold Program.declare
    dsimp only
    split <;> exact hinterned.demands
  · rw [arity?_declare] at harity
    rw [hsymbols]
    split at harity
    case isTrue htag =>
      subst htag
      have hplace := hinterned.symbols _ _ (SymbolTable.symbol?_intern_of_some
        (SymbolTable.symbol?_intern_self program.symbols name) datatype)
      exact (Array.getElem?_eq_some_iff.1 hplace).1
    case isFalse => exact hinterned.tags harity

theorem symbol?_declare (hsymbol : program.symbol? name = some symbol) (other : String) (arity : Nat)
    (datatype : String) : (program.declare other arity datatype).symbol? name = some symbol := by
  have hinterned : ((program.intern other).2.intern datatype).2.symbol? name = some symbol :=
    SymbolTable.symbol?_intern_of_some (SymbolTable.symbol?_intern_of_some hsymbol other) datatype
  unfold declare
  dsimp only
  split <;> exact hinterned

theorem arity?_declare_self (hsymbol : program.symbol? name = some symbol) (arity : Nat)
    (datatype : String) : (program.declare name arity datatype).arity? symbol = some arity := by
  have hintern : (program.intern name).1 = symbol := by
    rw [symbol?] at hsymbol
    simp only [intern, SymbolTable.intern, hsymbol]
  rw [arity?_declare, if_pos hintern.symm]

/-- Declaring a constructor with another name leaves the arity as it is. -/
theorem Tabled.arity?_declare_of_ne (htabled : program.Tabled)
    (hsymbol : program.symbol? name = some symbol) {other : String} (hother : other ≠ name)
    (arity : Nat) (datatype : String) :
    (program.declare other arity datatype).arity? symbol = program.arity? symbol := by
  rw [arity?_declare, if_neg]
  intro hsame
  refine hother ((htabled.symbols.intern other).injective
    (SymbolTable.symbol?_intern_self program.symbols other) ?_)
  rw [SymbolTable.symbol?_intern_of_some hsymbol other, hsame]
  rfl

theorem Tabled.declareAll (htabled : program.Tabled) (constructors : List (String × Nat × String)) :
    (program.declareAll constructors).Tabled :=
  declareAll_keeps (fun tag arity datatype htabled ↦ htabled.declare tag arity datatype) _ htabled

theorem Tabled.arity?_declareAll_of_notMem (htabled : program.Tabled)
    (hsymbol : program.symbol? name = some symbol) {constructors : List (String × Nat × String)}
    (hname : name ∉ constructors.map Prod.fst) :
    (program.declareAll constructors).arity? symbol = program.arity? symbol := by
  induction constructors generalizing program with
  | nil => rfl
  | cons first rest ih =>
    rw [List.map_cons, List.mem_cons, not_or] at hname
    have hrest := ih (htabled.declare first.1 first.2.1 first.2.2) (symbol?_declare hsymbol _ _ _)
      hname.2
    rw [htabled.arity?_declare_of_ne hsymbol (Ne.symm hname.1)] at hrest
    exact hrest

theorem Tabled.arity?_declareAll (htabled : program.Tabled)
    (hsymbol : program.symbol? name = some symbol) {constructors : List (String × Nat × String)}
    (hnodup : (constructors.map Prod.fst).Nodup) {datatype : String}
    (hmem : (name, arity, datatype) ∈ constructors) :
    (program.declareAll constructors).arity? symbol = some arity := by
  induction constructors generalizing program with
  | nil => cases hmem
  | cons first rest ih =>
    rw [List.map_cons, List.nodup_cons] at hnodup
    obtain rfl | hmem := List.mem_cons.1 hmem
    · have hrest := (htabled.declare name arity datatype).arity?_declareAll_of_notMem
        (symbol?_declare hsymbol _ _ _) hnodup.1
      rw [arity?_declare_self hsymbol] at hrest
      exact hrest
    · exact ih (htabled.declare _ _ _) (symbol?_declare hsymbol _ _ _) hnodup.2 hmem

theorem Tabled.ofNames (names : List String) :
    Tabled { symbols := SymbolTable.empty.internAll names } where
  demands hid := by simp at hid
  symbols := SymbolTable.Indexed.empty.internAll names
  tags harity := by simp [arity?, constructor?] at harity

theorem Tabled.internDemands (htabled : program.Tabled) (layers : List Demand) :
    (program.internDemands layers).Tabled ∧
      (program.internDemands layers).symbols = program.symbols :=
  ⟨internDemands_keeps (fun _ htabled ↦ htabled.internDemand _) htabled,
    Primed.symbols_internDemands program layers⟩

/-- The constructors that evaluation and the builder make use of themselves. -/
def builtinArities : List (Symbol × Nat) :=
  [(.trueTag, 0), (.falseTag, 0), (.nilTag, 0), (.consTag, 2), (.pairTag, 2)]

/-- The names of these constructors come first in a table. -/
theorem symbol?_builtin (names : List String) {position : Nat}
    (hposition : ["True", "False", "Nil", "Cons", "Pair"][position]? = some name) :
    (SymbolTable.empty.internAll (["True", "False", "Nil", "Cons", "Pair"] ++ names)).symbol? name =
      some ⟨position⟩ := by
  rw [SymbolTable.internAll, List.foldl_append]
  refine SymbolTable.symbol?_internAll_of_some ?_ names
  have hplaced : (SymbolTable.empty.internAll ["True", "False", "Nil", "Cons", "Pair"]).symbol?
      name = some ⟨0 + position⟩ :=
    SymbolTable.symbol?_internAll_of_new (by decide)
      (fun name _ ↦ by simp [SymbolTable.symbol?, SymbolTable.empty]) hposition
  rw [Nat.zero_add] at hplaced
  exact hplaced

/-- The constructors that evaluation and the builder use are declared from the start. -/
theorem initial_builtins (names : List String) (hstarted : program.Tabled)
    (hsymbols : program.symbols = SymbolTable.empty.internAll
      (["True", "False", "Nil", "Cons", "Pair"] ++ names)) :
    ∀ entry ∈ builtinArities,
      (program.declareAll initialConstructors).arity? entry.1 = some entry.2 := by
  have hsymbol : ∀ {position name},
      ["True", "False", "Nil", "Cons", "Pair"][position]? = some name →
        program.symbol? name = some ⟨position⟩ := by
    intro position name hposition
    rw [symbol?, hsymbols]
    exact symbol?_builtin names hposition
  have hnodup : (initialConstructors.map Prod.fst).Nodup := by decide
  have harity : ∀ {position name arity} datatype,
      ["True", "False", "Nil", "Cons", "Pair"][position]? = some name →
      (name, arity, datatype) ∈ initialConstructors →
        (program.declareAll initialConstructors).arity? ⟨position⟩ = some arity :=
    fun _ hposition hmem ↦ hstarted.arity?_declareAll (hsymbol hposition) hnodup hmem
  intro entry hentry
  simp only [builtinArities, List.mem_cons, List.not_mem_nil, or_false] at hentry
  obtain rfl | rfl | rfl | rfl | rfl := hentry
  · exact harity "Bool" rfl (by decide)
  · exact harity "Bool" rfl (by decide)
  · exact harity "List" rfl (by decide)
  · exact harity "List" rfl (by decide)
  · exact harity "Pair" rfl (by decide)

end Program

end Whence
