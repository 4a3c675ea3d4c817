import Nmos6502.Opcode

/-!
# Decoded instructions

The instruction at the start of a sequence of bytes, with its operand and its place in memory, and
its text. In the text a branch shows the address that it leads to, every other instruction its
operand as the addressing mode writes it.
-/

namespace Nmos6502

/-- The address that a branch at `address` leads to when its operand byte is `offset`. -/
def branchTarget (address : UInt16) (offset : UInt8) : UInt16 :=
  address + 2 + signExtend offset

/-- An instruction found in memory. -/
structure Decoded where
  /-- Where its first byte stands. -/
  address : UInt16
  opcode : Opcode
  /-- The bytes after the opcode. -/
  operand : List UInt8
  deriving DecidableEq, Repr

namespace Decoded

/-- The instruction at the start of some bytes; none if the first one is no opcode, or if the bytes
end before the instruction does. -/
def decode? (bytes : List UInt8) (address : UInt16) : Option Decoded :=
  match bytes with
  | [] => none
  | code :: rest =>
    match Opcode.decode? code with
    | none => none
    | some op =>
      let operand := rest.take op.mode.operandSize
      if operand.length = op.mode.operandSize then some ⟨address, op, operand⟩ else none

/-- The bytes that make up the instruction. -/
def bytes (d : Decoded) : List UInt8 :=
  d.opcode.code :: d.operand

/-- The address that a branch leads to. -/
def target? (d : Decoded) : Option UInt16 :=
  if d.opcode.mode = .relative then d.operand.head?.map (branchTarget d.address) else none

/-- The operand in text. -/
def operandText (d : Decoded) : List Char :=
  match d.target? with
  | some target => Hexadecimal.addressText target
  | none => d.opcode.mode.format d.operand

/-- The instruction in text. -/
def text (d : Decoded) : List Char :=
  match d.operandText with
  | [] => d.opcode.instruction.mnemonic
  | operand => d.opcode.instruction.mnemonic ++ ' ' :: operand

/-- A decoded instruction is the start of what it was decoded from. -/
theorem bytes_append_of_decode? {bytes : List UInt8} {address : UInt16} {d : Decoded}
    (h : decode? bytes address = some d) :
    bytes = d.bytes ++ bytes.drop d.bytes.length ∧ d.address = address := by
  cases bytes with
  | nil => simp [decode?] at h
  | cons code rest =>
    rw [decode?] at h
    cases hop : Opcode.decode? code with
    | none => simp [hop] at h
    | some op =>
      simp only [hop, Option.ite_none_right_eq_some, Option.some.injEq] at h
      obtain ⟨hlen, rfl⟩ := h
      simp only [Decoded.bytes, Opcode.code_of_decode? hop, List.length_cons, hlen,
        List.cons_append, List.drop_succ_cons, List.take_append_drop, and_self]

end Decoded

end Nmos6502
