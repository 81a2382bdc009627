import Std.Data.HashMap

/-!
# Symbols

Names of variables, operators, constructors and data types are interned: a symbol is the position
of its name in a table, and a name has one symbol.
-/

namespace Whence

structure Symbol where
  index : Nat
  deriving DecidableEq, Hashable, Repr, Inhabited

structure SymbolTable where
  names : Array String := #[]
  symbols : Std.HashMap String Symbol := ∅

namespace SymbolTable

def empty : SymbolTable := {}

def size (table : SymbolTable) : Nat := table.names.size

def symbol? (table : SymbolTable) (name : String) : Option Symbol := table.symbols[name]?

/-- A symbol from outside the table has a name that no source text can spell. -/
def name (table : SymbolTable) (symbol : Symbol) : String :=
  table.names[symbol.index]?.getD "<unknown>"

/-- The symbol of a name, which is added to the table if it is new. -/
def intern (table : SymbolTable) (name : String) : Symbol × SymbolTable :=
  match table.symbol? name with
  | some symbol => (symbol, table)
  | none =>
    let symbol : Symbol := ⟨table.names.size⟩
    (symbol, ⟨table.names.push name, table.symbols.insert name symbol⟩)

def internAll (table : SymbolTable) (names : List String) : SymbolTable :=
  names.foldl (fun table name ↦ (table.intern name).2) table

end SymbolTable

end Whence
