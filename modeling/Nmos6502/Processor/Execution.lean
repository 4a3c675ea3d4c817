import Nmos6502.Opcode
import Nmos6502.Processor.Effect
import Nmos6502.Processor.Location

/-!
# Carrying out instructions

An instruction as an activity on the bus: the opcode is read and looked up, the operand is located,
the program counter moves past the instruction, and the effect is performed. Its cost is the one in
the table of opcodes, one cycle more where indexing led to another page and the instruction pays for
that, and for a branch that is taken one cycle, or two when the target lies on another page than the
next instruction. Entering an interrupt is an activity too.
-/

namespace Nmos6502

/-- The address of the word where a non-maskable interrupt continues. -/
def nmiVector : UInt16 := 0xFFFA

/-- The address of the word where the program starts after a reset. -/
def resetVector : UInt16 := 0xFFFC

/-- The address of the word where an interrupt request or a `BRK` continues. -/
def irqVector : UInt16 := 0xFFFE

/-- What entering an interrupt costs. -/
def interruptCycles : Nat := 8

/-- The processor has met a byte that is no documented opcode. -/
structure IllegalOpcode where
  pc : UInt16
  code : UInt8
  deriving DecidableEq, Repr

/-- What is said of an illegal opcode. -/
def IllegalOpcode.message (e : IllegalOpcode) : String :=
  "illegal opcode " ++ String.ofList (Hexadecimal.byteText e.code) ++ " at " ++
    String.ofList (Hexadecimal.addressText e.pc)

namespace Registers

/-- A byte goes onto the stack. -/
def push (r : Registers) (value : UInt8) : Activity Registers := do
  Activity.writeByte (stackAddress r.sp) value
  return { r with sp := r.sp - 1 }

/-- A byte comes off the stack. -/
def pull (r : Registers) : Activity (UInt8 × Registers) := do
  let r := { r with sp := r.sp + 1 }
  let value ← Activity.readByte (stackAddress r.sp)
  return (value, r)

/-- A word goes onto the stack, high byte first. -/
def pushWord (r : Registers) (value : UInt16) : Activity Registers := do
  let r ← r.push (highByte value)
  r.push (lowByte value)

/-- A word comes off the stack, low byte first. -/
def pullWord (r : Registers) : Activity (UInt16 × Registers) := do
  let (low, r) ← r.pull
  let (high, r) ← r.pull
  return (word low high, r)

/-- The processor leaves the program for the routine at a vector: the address to come back to and the
status go onto the stack, and interrupt requests are masked. -/
def enter (r : Registers) (vector back : UInt16) (status : UInt8) : Activity Registers := do
  let r ← r.pushWord back
  let r ← r.push status
  let pc ← Activity.readWord vector
  return { r with pc := pc, flags := { r.flags with interruptDisable := true } }

/-- A hardware interrupt is entered. -/
def interrupt (r : Registers) (i : Interrupt) : Activity Registers := do
  Activity.report (.interruptServiced i r.pc)
  let vector := match i with
    | .nmi => nmiVector
    | .irq => irqVector
  r.enter vector r.pc r.flags.toByte

/-- What a taken branch costs beyond one that is not. -/
def branchCost (l : Location) : Nat :=
  if l.crossed then 2 else 1

/-- An effect is performed on the operand at a location. The program counter is already past the
instruction. The result is the registers and the cycles that the effect adds. -/
def perform (r : Registers) (effect : Effect) (l : Location) : Activity (Registers × Nat) :=
  match effect with
  | .read result => do
    let m ← r.fetch l.place
    return (result m r, 0)
  | .write value => do
    let r ← r.store (value r) l.place
    return (r, 0)
  | .modify result => do
    let m ← r.fetch l.place
    let r ← (result m r).2.store (result m r).1 l.place
    return (r, 0)
  | .internal result => return (result r, 0)
  | .branch taken =>
    match l.address? with
    | some target =>
      return if taken r.flags then ({ r with pc := target }, branchCost l) else (r, 0)
    | none => return (r, 0)
  | .push value => do
    let r ← r.push (value r)
    return (r, 0)
  | .pull result => do
    let (m, r) ← r.pull
    return (result m r, 0)
  | .jump =>
    match l.address? with
    | some target => return ({ r with pc := target }, 0)
    | none => return (r, 0)
  | .call =>
    match l.address? with
    | some target => do
      let r ← r.pushWord (r.pc - 1)
      return ({ r with pc := target }, 0)
    | none => return (r, 0)
  | .returnFromCall => do
    let (back, r) ← r.pullWord
    return ({ r with pc := back + 1 }, 0)
  | .returnFromInterrupt => do
    let (status, r) ← r.pull
    let (back, r) ← r.pullWord
    return ({ r with pc := back, flags := Flags.ofByte status }, 0)
  | .softwareBreak => do
    Activity.report (.softwareBreak (r.pc - 1))
    let r ← r.enter irqVector (r.pc + 1) (r.flags.toByte ||| Flags.breakBit)
    return (r, 0)

/-- The cycle that an instruction pays for indexing into another page. -/
def pageCost (i : Instruction) (l : Location) : Nat :=
  if i.hasPagePenalty && l.crossed then 1 else 0

/-- The instruction of an opcode is carried out, with the program counter at the opcode. The result
is the registers and the cost. -/
def execute (r : Registers) (op : Opcode) : Activity (Registers × Nat) := do
  Activity.report (.instructionDecoded r.pc op)
  let l ← r.locate op.mode
  let next := { r with pc := r.pc + UInt16.ofNat op.size }
  let (r', extra) ← next.perform op.instruction.effect l
  return (r', op.cycles + pageCost op.instruction l + extra)

/-- The instruction at the program counter is carried out, unless there is none. -/
def instruction (r : Registers) : Activity (Except IllegalOpcode (Registers × Nat)) := do
  let code ← Activity.readByte r.pc
  match Opcode.decode? code with
  | none =>
    Activity.report (.illegalOpcode r.pc code)
    return .error ⟨r.pc, code⟩
  | some op =>
    let result ← r.execute op
    return .ok result

end Registers

end Nmos6502
