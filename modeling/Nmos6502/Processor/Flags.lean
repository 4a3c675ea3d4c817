/-!
# Flags

The six flags of the processor and the byte that holds them in memory. Two bits of the byte belong to
no flag: bit 5 is always set, and bit 4 tells a `BRK` or `PHP` from an interrupt. Both are ignored when
the flags are read back (`ofByte_toByte`).
-/

namespace Nmos6502

/-- The flags of the processor. -/
structure Flags where
  negative : Bool
  overflow : Bool
  decimal : Bool
  interruptDisable : Bool
  zero : Bool
  carry : Bool
  deriving DecidableEq, Repr

namespace Flags

/-- All flags clear. -/
def clear : Flags := ⟨false, false, false, false, false, false⟩

/-- The bit of the status byte that is always set. -/
def unused : UInt8 := 0x20

/-- The bit of a pushed status byte that tells a `BRK` or `PHP` from an interrupt. -/
def breakBit : UInt8 := 0x10

/-- The status byte. -/
def toByte (f : Flags) : UInt8 :=
  unused ||| (if f.negative then 0x80 else 0) ||| (if f.overflow then 0x40 else 0) |||
    (if f.decimal then 0x08 else 0) ||| (if f.interruptDisable then 0x04 else 0) |||
    (if f.zero then 0x02 else 0) ||| (if f.carry then 0x01 else 0)

/-- The flags that a status byte holds. -/
def ofByte (b : UInt8) : Flags where
  negative := b &&& 0x80 != 0
  overflow := b &&& 0x40 != 0
  decimal := b &&& 0x08 != 0
  interruptDisable := b &&& 0x04 != 0
  zero := b &&& 0x02 != 0
  carry := b &&& 0x01 != 0

/-- The flags with zero and negative telling of a result. -/
def ofResult (f : Flags) (value : UInt8) : Flags :=
  { f with negative := value &&& 0x80 != 0, zero := value == 0 }

theorem ofByte_toByte (f : Flags) : ofByte f.toByte = f := by
  rcases f with ⟨n, v, d, i, z, c⟩
  cases n <;> cases v <;> cases d <;> cases i <;> cases z <;> cases c <;> rfl

/-- The break bit of a pushed status byte does not reach the flags. -/
theorem ofByte_toByte_or_breakBit (f : Flags) : ofByte (f.toByte ||| breakBit) = f := by
  rcases f with ⟨n, v, d, i, z, c⟩
  cases n <;> cases v <;> cases d <;> cases i <;> cases z <;> cases c <;> rfl

end Flags

end Nmos6502
