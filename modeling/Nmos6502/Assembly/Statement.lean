import Nmos6502.Assembly.Problem
import Nmos6502.Assembly.Symbols
import Nmos6502.Opcode

/-!
# Statements

The bytes of one statement. An operand is first taken literally: the first addressing mode that the
instruction has and whose written form the operand fits decides. An operand in no literal form may
name a label; then zeros stand where its address is still to come, and the statement keeps a
reference, which `Statement.patch` fills in. A branch reaches its target by a signed byte, counted
from the instruction that follows it (`branchOffset`).
-/

namespace Nmos6502

/-- How the address of a label enters the bytes of a statement. -/
inductive Reference
  /-- As a word after the opcode. -/
  | absolute
  /-- As the distance of a branch, in the byte after the opcode. -/
  | relative
  deriving DecidableEq, Repr

/-- A statement with the address of its first byte and the number of its line. -/
structure Statement where
  bytes : List UInt8
  /-- The label that the bytes depend on, and how. -/
  label : Option (List Char × Reference)
  position : UInt16
  line : Nat
  deriving DecidableEq, Repr

/-- The operand byte of a branch at `position` to `target`. -/
def branchOffset (position target : UInt16) : Except Problem UInt8 :=
  let next := position + 2
  let distance := target - next
  if distance < 0x80 ∨ 0xFF80 ≤ distance then .ok (lowByte distance)
  else .error (.branchOutOfRange target next)

namespace Statement

/-- The statement with the address of its label filled in. -/
def patch (s : Statement) (target : UInt16) : Except Problem Statement :=
  match s.label with
  | none => .ok s
  | some (_, .absolute) =>
    .ok { s with bytes := (s.bytes.set 1 (lowByte target)).set 2 (highByte target) }
  | some (_, .relative) =>
    (branchOffset s.position target).map fun offset => { s with bytes := s.bytes.set 1 offset }

/-- The statement that stores the given bytes. -/
def data (bytes : List UInt8) (position : UInt16) (line : Nat) : Statement :=
  ⟨bytes, none, position, line⟩

/-- The opcode and operand bytes that an operand stands for literally, by the first of some modes
that accepts it. -/
def literal? (i : Instruction) (operand : List Char) (modes : List AddressingMode) :
    Option (Opcode × List UInt8) :=
  modes.findSome? fun mode =>
    match i.opcode? mode, mode.parse? operand with
    | some op, some bytes => some (op, bytes)
    | _, _ => none

/-- An operand `name`, `name,X` or `name,Y`, as the name and the mode that it asks for. -/
def splitIndex (operand : List Char) : List Char × AddressingMode :=
  match before? [',', 'X'] operand, before? [',', 'x'] operand,
    before? [',', 'Y'] operand, before? [',', 'y'] operand with
  | some name, _, _, _ | none, some name, _, _ => (name, .absoluteX)
  | none, none, some name, _ | none, none, none, some name => (name, .absoluteY)
  | none, none, none, none => (operand, .absolute)

/-- The opcode and the label of an operand that names a label. -/
def labelled? (i : Instruction) (operand : List Char) : Option (Opcode × List Char) :=
  let (name, mode) := splitIndex operand
  if Label.isLabel name then (i.opcode? mode).map fun op => (op, name) else none

/-- A branch. Its operand is a raw offset, a target address or a label. -/
def ofBranch (i : Instruction) (operand : List Char) (position : UInt16) (line : Nat) :
    Except Problem Statement :=
  match i.opcode? .relative with
  | none => .error (.notBranch i)
  | some op =>
    match AddressingMode.relative.parse? operand, AddressingMode.absolute.parse? operand with
    | some offset, _ => .ok ⟨op.code :: offset, none, position, line⟩
    | none, some target =>
      (branchOffset position (word (target.getD 0 0) (target.getD 1 0))).map fun offset =>
        ⟨[op.code, offset], none, position, line⟩
    | none, none =>
      if Label.isLabel operand then
        .ok ⟨[op.code, 0], some (operand, .relative), position, line⟩
      else .error (.badTarget i operand)

/-- An instruction with its operand. -/
def ofInstruction (i : Instruction) (operand : List Char) (position : UInt16) (line : Nat) :
    Except Problem Statement :=
  if i.isBranch then ofBranch i operand position line
  else
    match literal? i (operand.map Char.toUpper) AddressingMode.all, labelled? i operand with
    | some (op, bytes), _ => .ok ⟨op.code :: bytes, none, position, line⟩
    | none, some (op, name) =>
      .ok ⟨[op.code, 0, 0], some (name, .absolute), position, line⟩
    | none, none =>
      .error (if operand = [] then .missingOperand i else .badOperand i operand)

/-- The values of a `.byte` directive, or the first one that is no value. -/
def values : List (List Char) → Except Problem (List UInt8)
  | [] => .ok []
  | piece :: rest =>
    match AddressingMode.zeroPage.parse? piece with
    | none => .error (.badValue piece)
    | some bytes => (values rest).map fun others => bytes ++ others

/-- A `.byte` directive with its operand. -/
def ofByteDirective (operand : List Char) (position : UInt16) (line : Nat) :
    Except Problem Statement :=
  if operand = [] then .error .noValues
  else (values (pieces ',' operand)).map fun bytes => data bytes position line

/-- The statement that a mnemonic, or the name of a directive, and an operand make. -/
def encode (mnemonic operand : List Char) (position : UInt16) (line : Nat) :
    Except Problem Statement :=
  match mnemonic with
  | '.' :: name =>
    if name.map Char.toLower = ['b', 'y', 't', 'e'] then ofByteDirective operand position line
    else .error (.unknownDirective mnemonic)
  | _ =>
    match Instruction.ofMnemonic? mnemonic with
    | none => .error (.unknownMnemonic mnemonic)
    | some i => ofInstruction i operand position line

end Statement

end Nmos6502
