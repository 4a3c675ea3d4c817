import Nmos6502.AddressingMode
import Nmos6502.Instruction

/-!
# Opcodes

The one table of documented opcodes: for each code the instruction, the addressing mode and the
cycles it takes before penalties. Decoding, encoding, sizes and timing are all read off this table.
`decode?` looks a code up in an index of the table (`decode?_eq_find?`), `opcode?` finds the opcode of
an instruction in a mode.
-/

namespace Nmos6502

/-- A documented opcode. -/
structure Opcode where
  /-- The byte that stands in memory. -/
  code : UInt8
  instruction : Instruction
  mode : AddressingMode
  /-- The cycles it takes when neither a page is crossed nor a branch taken. -/
  cycles : Nat
  deriving DecidableEq, Repr

namespace Opcode

/-- All documented opcodes, in the order of their codes. -/
def table : List Opcode :=
  [⟨0x00, .brk, .implied, 7⟩, ⟨0x01, .ora, .indirectX, 6⟩, ⟨0x05, .ora, .zeroPage, 3⟩,
    ⟨0x06, .asl, .zeroPage, 5⟩, ⟨0x08, .php, .implied, 3⟩, ⟨0x09, .ora, .immediate, 2⟩,
    ⟨0x0A, .asl, .accumulator, 2⟩, ⟨0x0D, .ora, .absolute, 4⟩, ⟨0x0E, .asl, .absolute, 6⟩,
    ⟨0x10, .bpl, .relative, 2⟩, ⟨0x11, .ora, .indirectY, 5⟩, ⟨0x15, .ora, .zeroPageX, 4⟩,
    ⟨0x16, .asl, .zeroPageX, 6⟩, ⟨0x18, .clc, .implied, 2⟩, ⟨0x19, .ora, .absoluteY, 4⟩,
    ⟨0x1D, .ora, .absoluteX, 4⟩, ⟨0x1E, .asl, .absoluteX, 7⟩, ⟨0x20, .jsr, .absolute, 6⟩,
    ⟨0x21, .and, .indirectX, 6⟩, ⟨0x24, .bit, .zeroPage, 3⟩, ⟨0x25, .and, .zeroPage, 3⟩,
    ⟨0x26, .rol, .zeroPage, 5⟩, ⟨0x28, .plp, .implied, 4⟩, ⟨0x29, .and, .immediate, 2⟩,
    ⟨0x2A, .rol, .accumulator, 2⟩, ⟨0x2C, .bit, .absolute, 4⟩, ⟨0x2D, .and, .absolute, 4⟩,
    ⟨0x2E, .rol, .absolute, 6⟩, ⟨0x30, .bmi, .relative, 2⟩, ⟨0x31, .and, .indirectY, 5⟩,
    ⟨0x35, .and, .zeroPageX, 4⟩, ⟨0x36, .rol, .zeroPageX, 6⟩, ⟨0x38, .sec, .implied, 2⟩,
    ⟨0x39, .and, .absoluteY, 4⟩, ⟨0x3D, .and, .absoluteX, 4⟩, ⟨0x3E, .rol, .absoluteX, 7⟩,
    ⟨0x40, .rti, .implied, 6⟩, ⟨0x41, .eor, .indirectX, 6⟩, ⟨0x45, .eor, .zeroPage, 3⟩,
    ⟨0x46, .lsr, .zeroPage, 5⟩, ⟨0x48, .pha, .implied, 3⟩, ⟨0x49, .eor, .immediate, 2⟩,
    ⟨0x4A, .lsr, .accumulator, 2⟩, ⟨0x4C, .jmp, .absolute, 3⟩, ⟨0x4D, .eor, .absolute, 4⟩,
    ⟨0x4E, .lsr, .absolute, 6⟩, ⟨0x50, .bvc, .relative, 2⟩, ⟨0x51, .eor, .indirectY, 5⟩,
    ⟨0x55, .eor, .zeroPageX, 4⟩, ⟨0x56, .lsr, .zeroPageX, 6⟩, ⟨0x58, .cli, .implied, 2⟩,
    ⟨0x59, .eor, .absoluteY, 4⟩, ⟨0x5D, .eor, .absoluteX, 4⟩, ⟨0x5E, .lsr, .absoluteX, 7⟩,
    ⟨0x60, .rts, .implied, 6⟩, ⟨0x61, .adc, .indirectX, 6⟩, ⟨0x65, .adc, .zeroPage, 3⟩,
    ⟨0x66, .ror, .zeroPage, 5⟩, ⟨0x68, .pla, .implied, 4⟩, ⟨0x69, .adc, .immediate, 2⟩,
    ⟨0x6A, .ror, .accumulator, 2⟩, ⟨0x6C, .jmp, .indirect, 5⟩, ⟨0x6D, .adc, .absolute, 4⟩,
    ⟨0x6E, .ror, .absolute, 6⟩, ⟨0x70, .bvs, .relative, 2⟩, ⟨0x71, .adc, .indirectY, 5⟩,
    ⟨0x75, .adc, .zeroPageX, 4⟩, ⟨0x76, .ror, .zeroPageX, 6⟩, ⟨0x78, .sei, .implied, 2⟩,
    ⟨0x79, .adc, .absoluteY, 4⟩, ⟨0x7D, .adc, .absoluteX, 4⟩, ⟨0x7E, .ror, .absoluteX, 7⟩,
    ⟨0x81, .sta, .indirectX, 6⟩, ⟨0x84, .sty, .zeroPage, 3⟩, ⟨0x85, .sta, .zeroPage, 3⟩,
    ⟨0x86, .stx, .zeroPage, 3⟩, ⟨0x88, .dey, .implied, 2⟩, ⟨0x8A, .txa, .implied, 2⟩,
    ⟨0x8C, .sty, .absolute, 4⟩, ⟨0x8D, .sta, .absolute, 4⟩, ⟨0x8E, .stx, .absolute, 4⟩,
    ⟨0x90, .bcc, .relative, 2⟩, ⟨0x91, .sta, .indirectY, 6⟩, ⟨0x94, .sty, .zeroPageX, 4⟩,
    ⟨0x95, .sta, .zeroPageX, 4⟩, ⟨0x96, .stx, .zeroPageY, 4⟩, ⟨0x98, .tya, .implied, 2⟩,
    ⟨0x99, .sta, .absoluteY, 5⟩, ⟨0x9A, .txs, .implied, 2⟩, ⟨0x9D, .sta, .absoluteX, 5⟩,
    ⟨0xA0, .ldy, .immediate, 2⟩, ⟨0xA1, .lda, .indirectX, 6⟩, ⟨0xA2, .ldx, .immediate, 2⟩,
    ⟨0xA4, .ldy, .zeroPage, 3⟩, ⟨0xA5, .lda, .zeroPage, 3⟩, ⟨0xA6, .ldx, .zeroPage, 3⟩,
    ⟨0xA8, .tay, .implied, 2⟩, ⟨0xA9, .lda, .immediate, 2⟩, ⟨0xAA, .tax, .implied, 2⟩,
    ⟨0xAC, .ldy, .absolute, 4⟩, ⟨0xAD, .lda, .absolute, 4⟩, ⟨0xAE, .ldx, .absolute, 4⟩,
    ⟨0xB0, .bcs, .relative, 2⟩, ⟨0xB1, .lda, .indirectY, 5⟩, ⟨0xB4, .ldy, .zeroPageX, 4⟩,
    ⟨0xB5, .lda, .zeroPageX, 4⟩, ⟨0xB6, .ldx, .zeroPageY, 4⟩, ⟨0xB8, .clv, .implied, 2⟩,
    ⟨0xB9, .lda, .absoluteY, 4⟩, ⟨0xBA, .tsx, .implied, 2⟩, ⟨0xBC, .ldy, .absoluteX, 4⟩,
    ⟨0xBD, .lda, .absoluteX, 4⟩, ⟨0xBE, .ldx, .absoluteY, 4⟩, ⟨0xC0, .cpy, .immediate, 2⟩,
    ⟨0xC1, .cmp, .indirectX, 6⟩, ⟨0xC4, .cpy, .zeroPage, 3⟩, ⟨0xC5, .cmp, .zeroPage, 3⟩,
    ⟨0xC6, .dec, .zeroPage, 5⟩, ⟨0xC8, .iny, .implied, 2⟩, ⟨0xC9, .cmp, .immediate, 2⟩,
    ⟨0xCA, .dex, .implied, 2⟩, ⟨0xCC, .cpy, .absolute, 4⟩, ⟨0xCD, .cmp, .absolute, 4⟩,
    ⟨0xCE, .dec, .absolute, 6⟩, ⟨0xD0, .bne, .relative, 2⟩, ⟨0xD1, .cmp, .indirectY, 5⟩,
    ⟨0xD5, .cmp, .zeroPageX, 4⟩, ⟨0xD6, .dec, .zeroPageX, 6⟩, ⟨0xD8, .cld, .implied, 2⟩,
    ⟨0xD9, .cmp, .absoluteY, 4⟩, ⟨0xDD, .cmp, .absoluteX, 4⟩, ⟨0xDE, .dec, .absoluteX, 7⟩,
    ⟨0xE0, .cpx, .immediate, 2⟩, ⟨0xE1, .sbc, .indirectX, 6⟩, ⟨0xE4, .cpx, .zeroPage, 3⟩,
    ⟨0xE5, .sbc, .zeroPage, 3⟩, ⟨0xE6, .inc, .zeroPage, 5⟩, ⟨0xE8, .inx, .implied, 2⟩,
    ⟨0xE9, .sbc, .immediate, 2⟩, ⟨0xEA, .nop, .implied, 2⟩, ⟨0xEC, .cpx, .absolute, 4⟩,
    ⟨0xED, .sbc, .absolute, 4⟩, ⟨0xEE, .inc, .absolute, 6⟩, ⟨0xF0, .beq, .relative, 2⟩,
    ⟨0xF1, .sbc, .indirectY, 5⟩, ⟨0xF5, .sbc, .zeroPageX, 4⟩, ⟨0xF6, .inc, .zeroPageX, 6⟩,
    ⟨0xF8, .sed, .implied, 2⟩, ⟨0xF9, .sbc, .absoluteY, 4⟩, ⟨0xFD, .sbc, .absoluteX, 4⟩,
    ⟨0xFE, .inc, .absoluteX, 7⟩]

/-- The table spread out over the 256 codes. -/
@[irreducible] def index : Vector (Option Opcode) 256 :=
  Vector.ofFn fun i => table.find? fun op => op.code == UInt8.ofNat i.val

/-- The documented opcode with a given code. -/
def decode? (code : UInt8) : Option Opcode :=
  have : code.toNat < 256 := code.toNat_lt
  index[code.toNat]

/-- How many bytes an instruction with this opcode takes. -/
def size (op : Opcode) : Nat :=
  op.mode.size

theorem decode?_eq_find? (code : UInt8) :
    decode? code = table.find? fun op => op.code == code := by
  unfold decode? index
  rw [Vector.getElem_ofFn, UInt8.ofNat_toNat]

theorem code_of_decode? {code : UInt8} {op : Opcode} (h : decode? code = some op) :
    op.code = code := by
  rw [decode?_eq_find?] at h
  simpa using List.find?_some h

theorem mem_table_of_decode? {code : UInt8} {op : Opcode} (h : decode? code = some op) :
    op ∈ table := by
  rw [decode?_eq_find?] at h
  exact List.mem_of_find?_eq_some h

end Opcode

namespace Instruction

/-- The opcodes of an instruction, in the order of their codes. -/
def opcodes (i : Instruction) : List Opcode :=
  Opcode.table.filter fun op => op.instruction == i

/-- The opcode of an instruction in a mode, if the mode is one of its. -/
def opcode? (i : Instruction) (mode : AddressingMode) : Option Opcode :=
  Opcode.table.find? fun op => op.instruction == i && op.mode == mode

theorem of_opcode? {i : Instruction} {mode : AddressingMode} {op : Opcode}
    (h : i.opcode? mode = some op) : op ∈ Opcode.table ∧ op.instruction = i ∧ op.mode = mode := by
  have hp := List.find?_some h
  simp only [Bool.and_eq_true, beq_iff_eq] at hp
  exact ⟨List.mem_of_find?_eq_some h, hp⟩

end Instruction

end Nmos6502
