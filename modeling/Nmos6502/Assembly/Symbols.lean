/-!
# Symbols

The labels that a program has defined so far, with their addresses, in the order of definition. A
name is defined at most once: a second definition is refused and the first one handed back.
-/

namespace Nmos6502

/-- A label with the address it stands for and the line that defines it. -/
structure Symbol where
  name : List Char
  address : UInt16
  /-- The number of the defining line, counted from one. -/
  line : Nat
  deriving DecidableEq, Repr

/-- Symbols in the order of their definition. -/
structure Symbols where
  toList : List Symbol
  deriving DecidableEq, Repr

namespace Symbols

/-- No symbols. -/
def empty : Symbols := ⟨[]⟩

/-- The symbol with a given name. -/
def find? (symbols : Symbols) (name : List Char) : Option Symbol :=
  symbols.toList.find? fun s => s.name == name

/-- The address that a name stands for. -/
def resolve? (symbols : Symbols) (name : List Char) : Option UInt16 :=
  (symbols.find? name).map Symbol.address

/-- One symbol more; if its name is taken, the symbol that has it is handed back instead. -/
def define (symbols : Symbols) (symbol : Symbol) : Except Symbol Symbols :=
  match symbols.find? symbol.name with
  | some earlier => .error earlier
  | none => .ok ⟨symbols.toList ++ [symbol]⟩

theorem find?_empty (name : List Char) : empty.find? name = none := rfl

/-- A definition succeeds exactly when its name is still free, and puts the symbol last. -/
theorem define_eq_ok_iff {symbols after : Symbols} {symbol : Symbol} :
    symbols.define symbol = .ok after ↔
      symbols.find? symbol.name = none ∧ after.toList = symbols.toList ++ [symbol] := by
  rw [define]
  cases symbols.find? symbol.name with
  | some earlier => simp
  | none =>
    rcases after with ⟨list⟩
    simp [eq_comm]

end Symbols

end Nmos6502
