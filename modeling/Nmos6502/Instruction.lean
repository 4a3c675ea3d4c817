/-!
# Instructions

The fifty-six documented instructions of the NMOS 6502, their mnemonics, and the classes of
instructions that are timed or written in a way of their own. A mnemonic names one instruction
(`ofMnemonic?_mnemonic`), in letters of either case.
-/

namespace Nmos6502

/-- A documented instruction, named by its mnemonic. -/
inductive Instruction
  | adc | and | asl | bcc | bcs | beq | bit | bmi | bne | bpl | brk | bvc | bvs | clc | cld | cli
  | clv | cmp | cpx | cpy | dec | dex | dey | eor | inc | inx | iny | jmp | jsr | lda | ldx | ldy
  | lsr | nop | ora | pha | php | pla | plp | rol | ror | rti | rts | sbc | sec | sed | sei | sta
  | stx | sty | tax | tay | tsx | txa | txs | tya
  deriving DecidableEq, Repr

namespace Instruction

/-- All instructions, in alphabetical order. -/
def all : List Instruction :=
  [adc, and, asl, bcc, bcs, beq, bit, bmi, bne, bpl, brk, bvc, bvs, clc, cld, cli, clv, cmp, cpx,
    cpy, dec, dex, dey, eor, inc, inx, iny, jmp, jsr, lda, ldx, ldy, lsr, nop, ora, pha, php, pla,
    plp, rol, ror, rti, rts, sbc, sec, sed, sei, sta, stx, sty, tax, tay, tsx, txa, txs, tya]

/-- The three letters that name an instruction. -/
def mnemonic : Instruction → List Char
  | adc => ['A', 'D', 'C']
  | and => ['A', 'N', 'D']
  | asl => ['A', 'S', 'L']
  | bcc => ['B', 'C', 'C']
  | bcs => ['B', 'C', 'S']
  | beq => ['B', 'E', 'Q']
  | bit => ['B', 'I', 'T']
  | bmi => ['B', 'M', 'I']
  | bne => ['B', 'N', 'E']
  | bpl => ['B', 'P', 'L']
  | brk => ['B', 'R', 'K']
  | bvc => ['B', 'V', 'C']
  | bvs => ['B', 'V', 'S']
  | clc => ['C', 'L', 'C']
  | cld => ['C', 'L', 'D']
  | cli => ['C', 'L', 'I']
  | clv => ['C', 'L', 'V']
  | cmp => ['C', 'M', 'P']
  | cpx => ['C', 'P', 'X']
  | cpy => ['C', 'P', 'Y']
  | dec => ['D', 'E', 'C']
  | dex => ['D', 'E', 'X']
  | dey => ['D', 'E', 'Y']
  | eor => ['E', 'O', 'R']
  | inc => ['I', 'N', 'C']
  | inx => ['I', 'N', 'X']
  | iny => ['I', 'N', 'Y']
  | jmp => ['J', 'M', 'P']
  | jsr => ['J', 'S', 'R']
  | lda => ['L', 'D', 'A']
  | ldx => ['L', 'D', 'X']
  | ldy => ['L', 'D', 'Y']
  | lsr => ['L', 'S', 'R']
  | nop => ['N', 'O', 'P']
  | ora => ['O', 'R', 'A']
  | pha => ['P', 'H', 'A']
  | php => ['P', 'H', 'P']
  | pla => ['P', 'L', 'A']
  | plp => ['P', 'L', 'P']
  | rol => ['R', 'O', 'L']
  | ror => ['R', 'O', 'R']
  | rti => ['R', 'T', 'I']
  | rts => ['R', 'T', 'S']
  | sbc => ['S', 'B', 'C']
  | sec => ['S', 'E', 'C']
  | sed => ['S', 'E', 'D']
  | sei => ['S', 'E', 'I']
  | sta => ['S', 'T', 'A']
  | stx => ['S', 'T', 'X']
  | sty => ['S', 'T', 'Y']
  | tax => ['T', 'A', 'X']
  | tay => ['T', 'A', 'Y']
  | tsx => ['T', 'S', 'X']
  | txa => ['T', 'X', 'A']
  | txs => ['T', 'X', 'S']
  | tya => ['T', 'Y', 'A']

/-- The instruction that a mnemonic names, its letters in either case. -/
def ofMnemonic? (text : List Char) : Option Instruction :=
  all.find? fun i => i.mnemonic == text.map Char.toUpper

/-- What is said of a word that is no mnemonic. -/
def unknownMnemonic (text : List Char) : String :=
  "unknown mnemonic '" ++ String.ofList text ++ "'"

/-- Whether an instruction is one of the eight conditional branches. -/
def isBranch : Instruction → Bool
  | bcc | bcs | beq | bmi | bne | bpl | bvc | bvs => true
  | _ => false

/-- Whether an instruction takes one cycle more when indexing leads to another page. -/
def hasPagePenalty : Instruction → Bool
  | adc | and | cmp | eor | lda | ldx | ldy | ora | sbc => true
  | _ => false

theorem mem_all (i : Instruction) : i ∈ all := by
  cases i <;> decide

theorem ofMnemonic?_mnemonic (i : Instruction) : ofMnemonic? i.mnemonic = some i := by
  cases i <;> decide

end Instruction

end Nmos6502
