import Nmos6502.Processor.Execution

/-!
# Machines

A processor with its interrupt lines and its bus. Time goes by in ticks. At an instruction boundary a
tick carries out a whole instruction, or enters an interrupt, and sets the number of ticks that it
costs; the ticks that remain of it pass without anything else happening
(`step_of_cycles_ne_zero`). All ticks are counted, without a bound; only the target of a run with a
budget is kept in a word of 64 bits.

The non-maskable interrupt answers a line that has gone from released to asserted. The machine
remembers whether it has already answered the present assertion (`nmiAnswered`). The interrupt request
is answered at every boundary while its line is raised and not masked.
-/

namespace Nmos6502

/-- A processor with its interrupt lines and its bus. -/
structure Machine where
  registers : Registers
  /-- The ticks that remain of the instruction under way; zero at an instruction boundary. -/
  cycles : Nat
  /-- All ticks so far. -/
  totalCycles : Nat
  /-- The present assertion of the non-maskable interrupt line has been answered. -/
  nmiAnswered : Bool
  nmi : InterruptLine
  /-- The interrupt request line, if it is not the one that the devices on the bus drive. -/
  ownIrq : Option InterruptLine
  bus : Bus

/-- What an operation of a machine leads to: a result or an illegal opcode, the machine afterwards in
either case, and what happened. -/
structure Outcome (α : Type) where
  result : Except IllegalOpcode α
  machine : Machine
  journal : List Entry

namespace Machine

/-- The interrupt request line that the processor listens to. -/
def irq (m : Machine) : InterruptLine :=
  m.ownIrq.getD m.bus.irq

/-- The machine once something has happened to its interrupt request line. -/
def updateIrq (m : Machine) (f : InterruptLine → InterruptLine) : Machine :=
  match m.ownIrq with
  | some line => { m with ownIrq := some (f line) }
  | none => { m with bus := { m.bus with irq := f m.bus.irq } }

/-- The machine once something has happened to its non-maskable interrupt line. -/
def updateNmi (m : Machine) (f : InterruptLine → InterruptLine) : Machine :=
  { m with nmi := f m.nmi }

/-- The machine carries out an activity on its bus. -/
def perform {α : Type} : Machine → Activity α → α × Machine × List Entry
  | ⟨registers, cycles, totalCycles, nmiAnswered, nmi, ownIrq, bus⟩, activity =>
    let ran := activity.run bus
    (ran.value, ⟨registers, cycles, totalCycles, nmiAnswered, nmi, ownIrq, ran.bus⟩, ran.journal)

/-! ### Starting -/

/-- The processor is reset: it starts where the reset vector says, with its registers cleared. The
interrupt lines stay as they are. -/
def reset (m : Machine) : Machine × List Entry :=
  let (pc, m, journal) := m.perform (Activity.readWord resetVector)
  ({ m with registers := Registers.reset pc, cycles := 0 },
    journal ++ [.event (.processorReset pc)])

/-- A processor that has not been reset, on a bus. -/
def unreset (bus : Bus) (nmi : InterruptLine) (ownIrq : Option InterruptLine) : Machine :=
  ⟨⟨0, 0, 0, 0, 0, .clear⟩, 0, 0, false, nmi, ownIrq, bus⟩

/-- A processor that listens to the line that the devices on the bus drive. -/
def connected (bus : Bus) (nmi : InterruptLine) : Machine × List Entry :=
  (unreset bus nmi none).reset

/-- A processor with interrupt lines of its own, which no device on the bus drives. -/
def isolated (bus : Bus) : Machine × List Entry :=
  (unreset bus .new (some .new)).reset

/-! ### Ticks -/

/-- The processor looks at its interrupt lines. Answering the non-maskable interrupt withdraws the
processor's own request on its line. -/
def sample (m : Machine) : Option Interrupt × Machine :=
  let raised := m.nmi.isRaised
  if raised && !m.nmiAnswered then
    (some .nmi, { m with nmiAnswered := true, nmi := m.nmi.set InterruptLine.owner false })
  else
    (if m.irq.isRaised && !m.registers.flags.interruptDisable then some .irq else none,
      { m with nmiAnswered := raised })

/-- What the processor does at an instruction boundary, once it has looked at its lines. -/
def action (r : Registers) : Option Interrupt → Activity (Except IllegalOpcode (Registers × Nat))
  | some i => do
    let r ← r.interrupt i
    return .ok (r, interruptCycles)
  | none => r.instruction

/-- An interrupt is entered or an instruction carried out. -/
def fetch (m : Machine) : Outcome Unit :=
  let (interrupt, m) := m.sample
  let (result, m, journal) := m.perform (action m.registers interrupt)
  match result with
  | .error e => ⟨.error e, m, journal⟩
  | .ok (registers, cost) => ⟨.ok (), { m with registers := registers, cycles := cost }, journal⟩

/-- A tick of the instruction under way goes by. -/
def spend (m : Machine) : Machine :=
  { m with cycles := m.cycles - 1, totalCycles := m.totalCycles + 1 }

/-- One tick. An illegal opcode takes no time. -/
def tick (m : Machine) : Outcome Unit :=
  if m.cycles = 0 then
    let o := m.fetch
    match o.result with
    | .error e => ⟨.error e, o.machine, o.journal⟩
    | .ok () => ⟨.ok (), o.machine.spend, o.journal⟩
  else ⟨.ok (), m.spend, []⟩

/-- All ticks that remain of the instruction under way go by. -/
def finish (m : Machine) : Machine :=
  { m with cycles := 0, totalCycles := m.totalCycles + m.cycles }

/-- Ticks up to the next instruction boundary, at least one. The result is how many there were. -/
def step (m : Machine) : Outcome Nat :=
  let o := m.tick
  match o.result with
  | .error e => ⟨.error e, o.machine, o.journal⟩
  | .ok () => ⟨.ok (o.machine.cycles + 1), o.machine.finish, o.journal⟩

theorem tick_of_cycles_ne_zero {m : Machine} (h : m.cycles ≠ 0) : m.tick = ⟨.ok (), m.spend, []⟩ :=
  if_neg h

/-- A tick that is spent first makes no difference to the end of the instruction under way. -/
theorem finish_spend {m : Machine} (h : m.cycles ≠ 0) : m.spend.finish = m.finish := by
  simp only [finish, spend]
  congr 1
  omega

/-- In the middle of an instruction a step only lets its remaining ticks go by. -/
theorem step_of_cycles_ne_zero {m : Machine} (h : m.cycles ≠ 0) :
    m.step = ⟨.ok m.cycles, m.finish, []⟩ := by
  have hc : m.spend.cycles + 1 = m.cycles := by
    simp only [spend]
    omega
  rw [step, tick_of_cycles_ne_zero h]
  simp only [hc, finish_spend h]

theorem pos_of_step {m : Machine} {n : Nat} (h : m.step.result = .ok n) : 0 < n := by
  rw [step] at h
  cases ht : m.tick.result with
  | error e => simp [ht] at h
  | ok u =>
    simp only [ht, Except.ok.injEq] at h
    omega

/-- Steps until at least so many ticks have gone by. The result is how many did. -/
def runTicks (m : Machine) (ticks : Nat) : Outcome Nat :=
  if ticks = 0 then ⟨.ok 0, m, []⟩
  else
    match h : m.step with
    | ⟨.error e, after, journal⟩ => ⟨.error e, after, journal⟩
    | ⟨.ok n, after, journal⟩ =>
      have : 0 < n := pos_of_step (by rw [h])
      let rest := after.runTicks (ticks - n)
      { rest with
        result := rest.result.map fun k => n + k
        journal := journal ++ rest.journal }
  termination_by ticks

/-- The number of ticks up to which a run with a budget goes on, counted as all ticks are. It is kept in
64 bits and wraps around. -/
def runTarget (m : Machine) (budget : Nat) : Nat :=
  (m.totalCycles + budget) % UInt64.size

/-- Steps until the ticks so far have reached the target of the budget. The result is how many went
by. -/
def runFor (m : Machine) (budget : Nat) : Outcome Nat :=
  m.runTicks (m.runTarget budget - m.totalCycles)

/-- A run whose target fits in 64 bits goes on for its budget. -/
theorem runFor_of_lt {m : Machine} {budget : Nat} (h : m.totalCycles + budget < UInt64.size) :
    m.runFor budget = m.runTicks budget := by
  rw [runFor, runTarget, Nat.mod_eq_of_lt h, Nat.add_sub_cancel_left]

/-- A run whose target does not fit ends before its first step. -/
theorem runFor_of_le {m : Machine} {budget : Nat} (hb : budget < UInt64.size)
    (h : UInt64.size ≤ m.totalCycles + budget) : m.runFor budget = ⟨.ok 0, m, []⟩ := by
  have hmod := Nat.mod_lt (m.totalCycles + budget) (show 0 < UInt64.size by decide)
  have hwrap : m.runTarget budget ≤ m.totalCycles := by
    rw [runTarget, Nat.mod_eq_sub_mod h]
    exact Nat.le_trans (Nat.mod_le _ _) (by omega)
  rw [runFor, Nat.sub_eq_zero_of_le hwrap, runTicks]
  rfl

/-! ### Interrupt lines from outside -/

/-- The processor's own request on the non-maskable interrupt line. To raise a released line is an
assertion that has not been answered. -/
def setNmi (m : Machine) (asserted : Bool) : Machine :=
  { m with
    nmiAnswered := m.nmiAnswered && !(asserted && !m.nmi.isRaised)
    nmi := m.nmi.set InterruptLine.owner asserted }

/-- The processor's own request on the interrupt request line. -/
def setIrq (m : Machine) (asserted : Bool) : Machine :=
  m.updateIrq fun line => line.set InterruptLine.owner asserted

/-- The line of an interrupt. -/
def line (m : Machine) : Interrupt → InterruptLine
  | .nmi => m.nmi
  | .irq => m.irq

/-- The machine once something has happened to one of its lines from outside. -/
def updateLine (m : Machine) (i : Interrupt) (f : InterruptLine → InterruptLine) : Machine :=
  match i with
  | .nmi => m.updateNmi f
  | .irq => m.updateIrq f

/-- A new source on one of the lines. -/
def connect (m : Machine) (i : Interrupt) : SourceId × Machine :=
  ((m.line i).connect.1, m.updateLine i fun line => line.connect.2)

/-! ### The bus from outside -/

/-- A read of the bus, and the machine after it. -/
def read (m : Machine) (address : UInt16) : UInt8 × Machine × List Entry :=
  m.perform (Activity.readByte address)

/-- A write to the bus. -/
def write (m : Machine) (address : UInt16) (value : UInt8) : Machine × List Entry :=
  (m.perform (Activity.writeByte address value)).2

/-- The machine once something has happened to its bus. -/
def onBus : Machine → (Bus → Bus) → Machine
  | ⟨registers, cycles, totalCycles, nmiAnswered, nmi, ownIrq, bus⟩, f =>
    ⟨registers, cycles, totalCycles, nmiAnswered, nmi, ownIrq, f bus⟩

/-- A clock of all devices. -/
def clock (m : Machine) : Machine :=
  m.onBus Bus.clock

/-- The machine with all devices taken off its bus. -/
def clearBus (m : Machine) : Machine :=
  m.onBus Bus.clear

end Machine

end Nmos6502
