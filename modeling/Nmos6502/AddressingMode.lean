import Nmos6502.Text.Hexadecimal
import Nmos6502.Text.Pieces

/-!
# Addressing modes

The thirteen ways in which an instruction names its operand, and the written form of each. Apart
from `implied` and `accumulator`, the form of a mode is a pair of delimiters around the operand's
digits, most significant byte first; `parse?` and `format` are both read off the delimiters.
-/

namespace Nmos6502

/-- The way in which an instruction names its operand. -/
inductive AddressingMode
  | implied
  | accumulator
  | immediate
  | zeroPage
  | zeroPageX
  | zeroPageY
  | relative
  | absolute
  | absoluteX
  | absoluteY
  | indirect
  | indirectX
  | indirectY
  deriving DecidableEq, Repr

namespace AddressingMode

/-- All modes, in the order in which an operand is tried against them: a shorter form comes before
the longer one that it could be taken for. -/
def all : List AddressingMode :=
  [implied, accumulator, immediate, zeroPage, zeroPageX, zeroPageY, relative, absolute, absoluteX,
    absoluteY, indirect, indirectX, indirectY]

/-- The place of a mode in the order of trial. -/
def priority (mode : AddressingMode) : Nat :=
  all.idxOf mode

/-- How many operand bytes follow the opcode. -/
def operandSize : AddressingMode → Nat
  | implied | accumulator => 0
  | absolute | absoluteX | absoluteY | indirect => 2
  | immediate | zeroPage | zeroPageX | zeroPageY | relative | indirectX | indirectY => 1

/-- How many bytes an instruction takes in this mode, its opcode included. -/
def size (mode : AddressingMode) : Nat :=
  mode.operandSize + 1

/-- What is written before the digits of an operand. -/
def opening : AddressingMode → List Char
  | implied | accumulator => []
  | immediate => ['#', '$']
  | zeroPage | zeroPageX | zeroPageY | relative | absolute | absoluteX | absoluteY => ['$']
  | indirect | indirectX | indirectY => ['(', '$']

/-- What is written after the digits of an operand. -/
def closing : AddressingMode → List Char
  | implied | accumulator | immediate | zeroPage | relative | absolute => []
  | zeroPageX | absoluteX => [',', 'X']
  | zeroPageY | absoluteY => [',', 'Y']
  | indirect => [')']
  | indirectX => [',', 'X', ')']
  | indirectY => [')', ',', 'Y']

/-- The operand bytes, low byte first, of a text that holds the digits of an operand between the
delimiters of a mode. -/
def delimited? (mode : AddressingMode) (token : List Char) : Option (List UInt8) :=
  match (after? mode.opening token).bind (before? mode.closing) with
  | none => none
  | some digits =>
    match Hexadecimal.bytes? digits with
    | none => none
    | some bytes => if bytes.length = mode.operandSize then some bytes.reverse else none

/-- The operand bytes, low byte first, that a text stands for in a mode. The accumulator may be
written `A` or left out. -/
def parse? (mode : AddressingMode) (token : List Char) : Option (List UInt8) :=
  match mode with
  | implied => if token = [] then some [] else none
  | accumulator => if token = [] ∨ token = ['A'] then some [] else none
  | mode => mode.delimited? token

/-- As many operand bytes as the mode takes; the ones that are missing count as zero. -/
def operandBytes (mode : AddressingMode) (bytes : List UInt8) : List UInt8 :=
  (List.range mode.operandSize).map fun i => bytes.getD i 0

/-- The written form of an operand whose bytes are given, low byte first. -/
def format (mode : AddressingMode) (bytes : List UInt8) : List Char :=
  match mode with
  | implied => []
  | accumulator => ['A']
  | mode => mode.opening ++ Hexadecimal.ofBytes (mode.operandBytes bytes).reverse ++ mode.closing

theorem mem_all (mode : AddressingMode) : mode ∈ all := by
  cases mode <;> decide

theorem length_operandBytes (mode : AddressingMode) (bytes : List UInt8) :
    (mode.operandBytes bytes).length = mode.operandSize := by
  simp [operandBytes]

/-- Bytes of the right number are left as they are. -/
theorem operandBytes_eq_self {mode : AddressingMode} {bytes : List UInt8}
    (h : bytes.length = mode.operandSize) : mode.operandBytes bytes = bytes := by
  refine List.ext_getElem (by simp [operandBytes, h]) fun i _ hi => ?_
  simp [operandBytes, List.getD, List.getElem?_eq_getElem hi]

end AddressingMode

end Nmos6502
