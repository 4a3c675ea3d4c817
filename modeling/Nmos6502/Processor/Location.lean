import Nmos6502.AddressingMode
import Nmos6502.Disassembly.Decoded
import Nmos6502.Processor.Activity
import Nmos6502.Processor.Registers

/-!
# Where an operand is

An addressing mode leads from the bytes after an opcode to the place of the operand: nowhere, in the
accumulator, in the instruction itself, or at an address. Indexing that leads to another page, and a
branch target on another page, are noted, because they take time. Addresses in the zero page wrap
around within it, and the two bytes of an indirect jump are taken from one page.
-/

namespace Nmos6502

/-- The place of an operand. -/
inductive Place
  | nowhere
  | accumulator
  | literal (value : UInt8)
  | memory (address : UInt16)
  deriving DecidableEq, Repr

/-- The place of an operand, and whether the way there led to another page. -/
structure Location where
  place : Place
  crossed : Bool
  deriving DecidableEq, Repr

namespace Location

/-- The operand at an address that is known without a carry between its bytes. -/
def direct (address : UInt16) : Location :=
  ⟨.memory address, false⟩

/-- The operand at an address that was reached from another. -/
def reached (base address : UInt16) : Location :=
  ⟨.memory address, !samePage base address⟩

/-- The address of an operand in memory. -/
def address? (l : Location) : Option UInt16 :=
  match l.place with
  | .memory address => some address
  | _ => none

end Location

namespace Registers

/-- The address of the first operand byte of the instruction at the program counter. -/
def operandAddress (r : Registers) : UInt16 :=
  r.pc + 1

/-- The word at a pointer in the zero page, whose second byte is looked for in the zero page too. -/
def zeroPageWord (pointer : UInt8) : Activity UInt16 := do
  let low ← Activity.readByte pointer.toUInt16
  let high ← Activity.readByte (pointer + 1).toUInt16
  return word low high

/-- The word at a pointer anywhere, whose second byte is looked for in the page of the first. -/
def pagedWord (pointer : UInt16) : Activity UInt16 := do
  let low ← Activity.readByte pointer
  let high ← Activity.readByte (word (lowByte pointer + 1) (highByte pointer))
  return word low high

/-- The place of the operand of the instruction at the program counter. -/
def locate (r : Registers) : AddressingMode → Activity Location
  | .implied => return ⟨.nowhere, false⟩
  | .accumulator => return ⟨.accumulator, false⟩
  | .immediate => do
    return ⟨.literal (← Activity.readByte r.operandAddress), false⟩
  | .zeroPage => do
    return .direct (← Activity.readByte r.operandAddress).toUInt16
  | .zeroPageX => do
    return .direct ((← Activity.readByte r.operandAddress) + r.x).toUInt16
  | .zeroPageY => do
    return .direct ((← Activity.readByte r.operandAddress) + r.y).toUInt16
  | .relative => do
    let offset ← Activity.readByte r.operandAddress
    return .reached (r.pc + 2) (branchTarget r.pc offset)
  | .absolute => do
    return .direct (← Activity.readWord r.operandAddress)
  | .absoluteX => do
    let base ← Activity.readWord r.operandAddress
    return .reached base (base + r.x.toUInt16)
  | .absoluteY => do
    let base ← Activity.readWord r.operandAddress
    return .reached base (base + r.y.toUInt16)
  | .indirect => do
    return .direct (← pagedWord (← Activity.readWord r.operandAddress))
  | .indirectX => do
    let pointer ← Activity.readByte r.operandAddress
    return .direct (← zeroPageWord (pointer + r.x))
  | .indirectY => do
    let base ← zeroPageWord (← Activity.readByte r.operandAddress)
    return .reached base (base + r.y.toUInt16)

/-- The value of an operand. -/
def fetch (r : Registers) : Place → Activity UInt8
  | .nowhere => return 0
  | .accumulator => return r.a
  | .literal value => return value
  | .memory address => Activity.readByte address

/-- The registers once a value has been put in the place of an operand. -/
def store (r : Registers) (value : UInt8) : Place → Activity Registers
  | .nowhere | .literal _ => return r
  | .accumulator => return { r with a := value }
  | .memory address => do
    Activity.writeByte address value
    return r

end Registers

end Nmos6502
