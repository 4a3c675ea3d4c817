import Nmos6502.AddressRange

/-!
# RAM

Memory that can be read and written, one cell for each address of its range. Cells are reached by
their offset from the first address; where there is no cell, reading gives zero and writing does
nothing.
-/

namespace Nmos6502

/-- Readable and writable memory. -/
structure Ram where
  range : AddressRange
  cells : Array UInt8
  size_cells : cells.size = range.size

namespace Ram

/-- Memory in which every cell is zero. -/
def new (range : AddressRange) : Ram :=
  ⟨range, Array.replicate range.size 0, Array.size_replicate⟩

/-- The cell at an offset. -/
def cell (ram : Ram) (offset : Nat) : UInt8 :=
  ram.cells[offset]?.getD 0

/-- The memory after a value has been stored at an offset. -/
def store (ram : Ram) (offset : Nat) (value : UInt8) : Ram :=
  ⟨ram.range, ram.cells.setIfInBounds offset value,
    Array.size_setIfInBounds.trans ram.size_cells⟩

/-- The byte at an offset. -/
def read (ram : Ram) (offset : UInt16) : UInt8 :=
  ram.cell offset.toNat

/-- The memory after a byte has been written at an offset. -/
def write (ram : Ram) (offset : UInt16) (value : UInt8) : Ram :=
  ram.store offset.toNat value

/-- The memory after some bytes have been stored from an offset on. Those past the last cell are
dropped. -/
def load (ram : Ram) (offset : Nat) : List UInt8 → Ram
  | [] => ram
  | value :: rest => (ram.store offset value).load (offset + 1) rest

/-- All cells in order. -/
def toList (ram : Ram) : List UInt8 :=
  ram.cells.toList

@[simp] theorem range_store (ram : Ram) (offset : Nat) (value : UInt8) :
    (ram.store offset value).range = ram.range := rfl

/-- Storing changes the cell at its offset, if there is one, and no other. -/
theorem cell_store (ram : Ram) (offset other : Nat) (value : UInt8) :
    (ram.store offset value).cell other =
      if other = offset ∧ offset < ram.range.size then value else ram.cell other := by
  simp only [cell, store, Array.getElem?_setIfInBounds, ← ram.size_cells]
  by_cases h : other = offset
  · subst h
    by_cases hlt : other < ram.cells.size <;> simp [hlt]
  · simp [h, Ne.symm h]

@[simp] theorem range_load (ram : Ram) (offset : Nat) (bytes : List UInt8) :
    (ram.load offset bytes).range = ram.range := by
  induction bytes generalizing ram offset with
  | nil => rfl
  | cons value rest ih => rw [load, ih, range_store]

theorem cell_new (range : AddressRange) (offset : Nat) : (new range).cell offset = 0 := by
  simp only [cell, new, Array.getElem?_replicate]
  split <;> rfl

end Ram

end Nmos6502
