import Nmos6502.Instruction
import Nmos6502.Processor.Arithmetic
import Nmos6502.Processor.Registers

/-!
# Effects of instructions

What an instruction does, apart from where its operand is. The effects say which way a byte goes
between the processor and the operand or the stack; the functions in them say what becomes of the
registers. `Instruction.effect` gives the effect of each instruction.
-/

namespace Nmos6502

/-- What an instruction does. -/
inductive Effect
  /-- Takes in its operand. -/
  | read (result : UInt8 → Registers → Registers)
  /-- Puts out a byte at the place of its operand. -/
  | write (value : Registers → UInt8)
  /-- Replaces its operand: the byte that replaces it, and the registers then. -/
  | modify (result : UInt8 → Registers → UInt8 × Registers)
  /-- Works on the registers alone. -/
  | internal (result : Registers → Registers)
  /-- Goes on at its target if the flags say so. -/
  | branch (taken : Flags → Bool)
  /-- Puts a byte on the stack. -/
  | push (value : Registers → UInt8)
  /-- Takes a byte from the stack. -/
  | pull (result : UInt8 → Registers → Registers)
  /-- Goes on at the address of its operand. -/
  | jump
  /-- The same, with the way back on the stack. -/
  | call
  | returnFromCall
  | returnFromInterrupt
  | softwareBreak

namespace Registers

/-- The registers with a sum in the accumulator and its flags. -/
def withSum (r : Registers) (s : Sum8) : Registers :=
  { r with
    a := s.value
    flags := { r.flags with
      carry := s.carry, overflow := s.overflow, negative := s.negative, zero := s.zero } }

/-- Addition to the accumulator, in the mode that the decimal flag chooses. -/
def add (m : UInt8) (r : Registers) : Registers :=
  r.withSum (if r.flags.decimal then Sum8.addDecimal r.a m r.flags.carry
    else Sum8.add r.a m r.flags.carry)

/-- Subtraction from the accumulator, in the mode that the decimal flag chooses. -/
def subtract (m : UInt8) (r : Registers) : Registers :=
  r.withSum (if r.flags.decimal then Sum8.subtractDecimal r.a m r.flags.carry
    else Sum8.subtract r.a m r.flags.carry)

/-- Comparison of a register with an operand: the flags of their difference. -/
def compareWith (register : Registers → UInt8) (m : UInt8) (r : Registers) : Registers :=
  let r' := r.withResult (register r - m)
  { r' with flags := { r'.flags with carry := m ≤ register r } }

/-- Comparison of an operand with the accumulator, bit by bit. -/
def bitTest (m : UInt8) (r : Registers) : Registers :=
  { r with
    flags := { r.flags with
      zero := r.a &&& m == 0, negative := m &&& 0x80 != 0, overflow := m &&& 0x40 != 0 } }

/-- A shifted operand with the bit that was shifted out. -/
def shift (result : UInt8 → Bool → UInt8) (out : UInt8 → Bool) (m : UInt8) (r : Registers) :
    UInt8 × Registers :=
  let value := result m r.flags.carry
  let r' := r.withResult value
  (value, { r' with flags := { r'.flags with carry := out m } })

/-- The top bit of a byte. -/
def topBit (m : UInt8) : Bool := m &&& 0x80 != 0

/-- The lowest bit of a byte. -/
def lowBit (m : UInt8) : Bool := m &&& 0x01 != 0

/-- A replaced operand whose flags tell of the new value. -/
def replace (result : UInt8 → UInt8) (m : UInt8) (r : Registers) : UInt8 × Registers :=
  (result m, r.withResult (result m))

/-- The registers with other flags. -/
def withFlags (change : Flags → Flags) (r : Registers) : Registers :=
  { r with flags := change r.flags }

end Registers

open Registers in
/-- The effect of each instruction. -/
def Instruction.effect : Instruction → Effect
  | .adc => .read Registers.add
  | .sbc => .read Registers.subtract
  | .and => .read fun m r => r.withA (r.a &&& m)
  | .ora => .read fun m r => r.withA (r.a ||| m)
  | .eor => .read fun m r => r.withA (r.a ^^^ m)
  | .bit => .read Registers.bitTest
  | .cmp => .read (compareWith Registers.a)
  | .cpx => .read (compareWith Registers.x)
  | .cpy => .read (compareWith Registers.y)
  | .lda => .read fun m r => r.withA m
  | .ldx => .read fun m r => r.withX m
  | .ldy => .read fun m r => r.withY m
  | .sta => .write Registers.a
  | .stx => .write Registers.x
  | .sty => .write Registers.y
  | .asl => .modify (shift (fun m _ => m <<< 1) topBit)
  | .lsr => .modify (shift (fun m _ => m >>> 1) lowBit)
  | .rol => .modify (shift (fun m c => m <<< 1 ||| if c then 0x01 else 0) topBit)
  | .ror => .modify (shift (fun m c => m >>> 1 ||| if c then 0x80 else 0) lowBit)
  | .inc => .modify (replace (· + 1))
  | .dec => .modify (replace (· - 1))
  | .inx => .internal fun r => r.withX (r.x + 1)
  | .iny => .internal fun r => r.withY (r.y + 1)
  | .dex => .internal fun r => r.withX (r.x - 1)
  | .dey => .internal fun r => r.withY (r.y - 1)
  | .tax => .internal fun r => r.withX r.a
  | .tay => .internal fun r => r.withY r.a
  | .txa => .internal fun r => r.withA r.x
  | .tya => .internal fun r => r.withA r.y
  | .tsx => .internal fun r => r.withX r.sp
  | .txs => .internal fun r => { r with sp := r.x }
  | .nop => .internal fun r => r
  | .clc => .internal (withFlags fun f => { f with carry := false })
  | .sec => .internal (withFlags fun f => { f with carry := true })
  | .cli => .internal (withFlags fun f => { f with interruptDisable := false })
  | .sei => .internal (withFlags fun f => { f with interruptDisable := true })
  | .cld => .internal (withFlags fun f => { f with decimal := false })
  | .sed => .internal (withFlags fun f => { f with decimal := true })
  | .clv => .internal (withFlags fun f => { f with overflow := false })
  | .bcc => .branch fun f => !f.carry
  | .bcs => .branch fun f => f.carry
  | .bne => .branch fun f => !f.zero
  | .beq => .branch fun f => f.zero
  | .bpl => .branch fun f => !f.negative
  | .bmi => .branch fun f => f.negative
  | .bvc => .branch fun f => !f.overflow
  | .bvs => .branch fun f => f.overflow
  | .pha => .push Registers.a
  | .php => .push fun r => r.flags.toByte ||| Flags.breakBit
  | .pla => .pull fun m r => r.withA m
  | .plp => .pull fun m r => { r with flags := Flags.ofByte m }
  | .jmp => .jump
  | .jsr => .call
  | .rts => .returnFromCall
  | .rti => .returnFromInterrupt
  | .brk => .softwareBreak

end Nmos6502
