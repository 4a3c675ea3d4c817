import Nmos6502.Processor.Flags

/-!
# Registers

The registers of the processor: accumulator, two index registers, stack pointer, program counter and
flags. The stack lies in page one and grows downward.
-/

namespace Nmos6502

/-- The registers of the processor. -/
structure Registers where
  a : UInt8
  x : UInt8
  y : UInt8
  sp : UInt8
  pc : UInt16
  flags : Flags
  deriving DecidableEq, Repr

namespace Registers

/-- The registers after a reset that led to `pc`. -/
def reset (pc : UInt16) : Registers :=
  ⟨0, 0, 0, 0xFF, pc, .clear⟩

/-- The address that a stack pointer stands for. -/
def stackAddress (sp : UInt8) : UInt16 :=
  0x0100 + sp.toUInt16

@[simp] theorem stackAddress_inj {a b : UInt8} : stackAddress a = stackAddress b ↔ a = b :=
  (UInt16.add_right_inj _).trans UInt8.toUInt16_inj

/-- The registers with zero and negative telling of a result. -/
def withResult (r : Registers) (value : UInt8) : Registers :=
  { r with flags := r.flags.ofResult value }

/-- The registers with a result in the accumulator. -/
def withA (r : Registers) (value : UInt8) : Registers :=
  { r with a := value }.withResult value

/-- The registers with a result in the first index register. -/
def withX (r : Registers) (value : UInt8) : Registers :=
  { r with x := value }.withResult value

/-- The registers with a result in the second index register. -/
def withY (r : Registers) (value : UInt8) : Registers :=
  { r with y := value }.withResult value

end Registers

end Nmos6502
