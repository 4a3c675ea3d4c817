import Nmos6502.Proofs.Machine.Boundary
import Nmos6502.Proofs.Processor.Frame
import Nmos6502.Proofs.Processor.StackDiscipline
import Nmos6502.Proofs.Processor.Timing
import Nmos6502.Proofs.Processor.Traffic

/-!
# One instruction

At a boundary where no interrupt is taken and the byte at the program counter is an opcode, the
machine carries out one instruction (`Machine.step_of_decode?`). What this does on the bus
(`Machine.instruction_traffic`), what it leaves alone and what the flags tell
(`Machine.instruction_frame`), and what it costs (`Machine.instruction_timing`) are the traffic,
the frame and the timing of the processor. Seen as a change of the registers and the bus alone, the
step reads its way to the operand and then performs the instruction (`Machine.core_step`).
-/

namespace Nmos6502

namespace Machine

variable {m : Machine} {op : Opcode}

/-- **One instruction.** The registers are those that its effect makes, the bus and the journal are
those of the processor, and the tick that begins the step does it all. -/
theorem step_of_decode? (h : m.IsAtInstruction)
    (hop : Opcode.decode? (m.bus.peek m.registers.pc) = some op) :
    let found := m.bus.afterRead m.registers.pc
    m.step.result = .ok ((m.registers.execute op).run found).value.2 ∧
      m.step.machine.registers = (m.registers.performed op found).value.1 ∧
      m.step.machine.bus = (m.registers.instruction.run m.bus).bus ∧
      m.step.journal = (m.registers.instruction.run m.bus).journal ∧
      m.tick.machine.registers = m.step.machine.registers ∧
      m.tick.machine.bus = m.step.machine.bus ∧ m.tick.journal = m.step.journal := by
  intro found
  have hbegun : m.begun.value = .ok ((m.registers.performed op found).value.1,
      ((m.registers.execute op).run found).value.2) := by
    rw [h.begun_eq, Registers.run_instruction_of_decode? hop, (m.registers.run_execute op found).1]
  rw [tick_of_begun_ok h.1 hbegun, step_of_begun_ok h.1 hbegun, ← h.begun_eq]
  exact ⟨rfl, rfl, rfl, rfl, rfl, rfl, rfl⟩

/-- The processor of a machine with the bus. -/
def core (m : Machine) : Core :=
  ⟨m.registers, m.bus⟩

/-- **A step is a handler.** Before it the opcode is read and the way to the operand is gone, and the
program counter moves behind the instruction. -/
theorem core_step (h : m.IsAtInstruction)
    (hop : Opcode.decode? (m.bus.peek m.registers.pc) = some op) :
    let r := m.registers
    let found := m.bus.afterRead r.pc
    m.step.machine.core = Core.perform ⟨{ r with pc := r.pc + UInt16.ofNat op.size },
        found.after (BusAct.reads (r.wayTo op.mode found))⟩
      op.instruction ((r.approach op.mode found).location r op.mode) := by
  intro r found
  obtain ⟨-, hregisters, hbus, -⟩ := step_of_decode? h hop
  obtain ⟨-, hacts⟩ := r.run_execute op found
  have hperformed : (r.performed op found).bus = _ := Activity.run_bus _ _
  have hexecuted : ((r.execute op).run found).bus = (r.performed op found).bus := by
    rw [Activity.run_bus, hacts, hperformed]
    exact List.foldl_append
  rw [Registers.run_instruction_of_decode? hop] at hbus
  exact congr (congrArg Core.mk hregisters) (hbus.trans hexecuted)

/-! ### What it does on the bus -/

/-- **The traffic of one instruction** is all that the machine does on its bus. -/
theorem instruction_traffic (h : m.IsAtInstruction)
    (hop : Opcode.decode? (m.bus.peek m.registers.pc) = some op) :
    Entry.acts m.tick.journal = m.registers.traffic op m.bus ∧
      m.tick.machine.bus = m.bus.after (m.registers.traffic op m.bus) ∧
      m.step.journal = m.tick.journal ∧ m.step.machine.bus = m.tick.machine.bus := by
  obtain ⟨-, -, hbus, hjournal, -, hbus', hjournal'⟩ := step_of_decode? h hop
  have hacts := Registers.acts_instruction hop
  have hrun := m.registers.instruction.run_bus m.bus
  rw [hacts] at hrun
  rw [hbus', hjournal', hbus, hjournal]
  exact ⟨hacts, hrun, rfl, rfl⟩

/-- A load through a pointer that wraps around in the zero page, from a port of an interface: the
port is read once, and that collects what is there. -/
theorem instruction_traffic_at_a_port :
    let zero : AddressRange := ⟨0x0000, 0x00FF, by decide⟩
    let code : AddressRange := ⟨0x0200, 0x0201, by decide⟩
    let registers : AddressRange := ⟨0xD010, 0xD013, by decide⟩
    let bus : Bus := ⟨#[.ram (((Ram.new zero).load 0 [0xD0]).load 0xFF [0x0F]),
      .ram ((Ram.new code).load 0 [0xB1, 0xFF]), .pia ((Pia.new registers 1).write 0 0x42)], .new⟩
    let m : Machine := { unreset bus .new none with registers := ⟨0, 0, 1, 0xFF, 0x0200, .clear⟩ }
    Entry.acts m.tick.journal = BusAct.reads [0x0200, 0x0201, 0x00FF, 0x0000, 0xD010] ∧
      m.bus.peek 0xD013 = 0x01 ∧ m.tick.machine.bus.peek 0xD013 = 0x00 := by
  intro zero code registers bus m
  obtain ⟨hacts, hbus, -⟩ := @instruction_traffic m ⟨0xB1, .lda, .indirectY, 5⟩
    ⟨rfl, by decide +kernel⟩ (by decide +kernel)
  rw [hacts, hbus]
  decide +kernel

/-! ### What it leaves alone -/

/-- **The frame of one instruction.** It changes only the registers and flags that it defines, the
program goes on behind it unless it jumps, and if it has a result, this is where it belongs and the
flags tell of it. -/
theorem instruction_frame (h : m.IsAtInstruction)
    (hop : Opcode.decode? (m.bus.peek m.registers.pc) = some op) :
    let r := m.registers
    let r' := m.step.machine.registers
    m.tick.machine.registers = r' ∧ (∀ part : Part, ¬ op.Defines part → part.Agree r r') ∧
      (op.instruction.isJump = false → op.instruction.condition r.flags = false →
        r'.pc = r.pc + UInt16.ofNat op.size) ∧
      (op.instruction ∈ Part.zero.definers → op.instruction ∉ [.bit, .plp, .rti] →
        op.instruction.isDecimal r.flags = false →
          ∃ v, op.instruction.result? r (r.intakeOf op (m.bus.afterRead r.pc)) = some v ∧
            op.Shows v r') := by
  intro r r'
  obtain ⟨-, hregisters, -, -, hregisters', -⟩ := step_of_decode? h hop
  have hr' : r' = (r.performed op (m.bus.afterRead r.pc)).value.1 := hregisters
  refine ⟨hregisters', ?_, ?_, ?_⟩
  · intro part hpart
    rw [hr']
    exact Registers.agree_performed (Opcode.mem_table_of_decode? hop) hpart _
  · intro hjump hcondition
    rw [hr']
    exact Registers.pc_performed hjump ((op.instruction.isTaken_eq_condition _).trans hcondition) _
  · intro hzero hother hbinary
    obtain ⟨v, hv⟩ := Instruction.exists_result? hzero hother r
      (r.intakeOf op (m.bus.afterRead r.pc))
    refine ⟨v, hv, ?_⟩
    rw [hr']
    exact Registers.shows_performed hv hbinary

/-- A byte in a ROM is incremented. The ROM stays as it is, but the flags tell of the result. -/
theorem instruction_frame_at_a_rom :
    let range : AddressRange := ⟨0x0200, 0x0203, by decide⟩
    let bus : Bus := ⟨#[.rom ⟨range, #[0xEE, 0x03, 0x02, 0xFF], by decide⟩], .new⟩
    let m : Machine := { unreset bus .new none with
      registers := ⟨1, 2, 3, 0xFF, 0x0200, { Flags.clear with carry := true, negative := true }⟩ }
    (∀ part : Part, part = .zero ∨ part = .negative ∨
        part.Agree m.registers m.step.machine.registers) ∧
      m.step.machine.registers.pc = 0x0203 ∧ m.step.machine.registers.flags.TellOf 0 ∧
      m.step.machine.bus.peek 0x0203 = 0xFF := by
  intro range bus m
  -- The opcode is looked up once.
  obtain ⟨hop, hrom⟩ : Opcode.decode? (m.bus.peek m.registers.pc) = some ⟨0xEE, .inc, .absolute, 6⟩ ∧
      m.step.machine.bus.peek 0x0203 = 0xFF := by decide +kernel
  obtain ⟨-, hparts, hpc, hshows⟩ := instruction_frame ⟨rfl, by decide +kernel⟩ hop
  refine ⟨?_, hpc rfl rfl, ?_, hrom⟩
  · intro part
    cases part with
    | zero => exact Or.inl rfl
    | negative => exact Or.inr (Or.inl rfl)
    | _ => exact Or.inr (Or.inr (hparts _ (by decide)))
  · obtain ⟨v, hv, hshown⟩ := hshows (by decide) (by decide) rfl
    have hzero : v = 0 := Option.some.inj (hv.symm.trans (by decide +kernel))
    exact hzero ▸ hshown.tell

/-! ### What it costs -/

/-- **The timing of one instruction.** A store or a replaced operand never costs more than the table
says, and neither does a branch whose condition is not satisfied. -/
theorem instruction_timing (h : m.IsAtInstruction)
    (hop : Opcode.decode? (m.bus.peek m.registers.pc) = some op) :
    let r := m.registers
    let w := r.approach op.mode (m.bus.afterRead r.pc)
    m.step.result = .ok (op.cycles + r.carryCycles op w + r.takenCycles op w) ∧
      (op.instruction ∈ Instruction.storing → m.step.result = .ok op.cycles) ∧
      (op.instruction.isBranch = true → op.instruction.condition r.flags = false →
        m.step.result = .ok op.cycles) := by
  intro r w
  have hop' := Opcode.mem_table_of_decode? hop
  obtain ⟨hresult, -⟩ := step_of_decode? h hop
  rw [Registers.cost_execute hop'] at hresult
  refine ⟨hresult, ?_, ?_⟩
  · intro hstores
    obtain ⟨hw, hcondition⟩ := Instruction.of_mem_storing hstores
    rw [hresult, Registers.cycles_of_not_mem hw (hcondition _)]
  · intro hbranch hcondition
    have hw : op.instruction ∉ Instruction.waiting := by
      intro hw
      rw [Instruction.not_isBranch_of_mem_waiting hw] at hbranch
      cases hbranch
    rw [hresult, Registers.cycles_of_not_mem hw hcondition]

/-- A load at an indexed address that wraps around costs a cycle more. -/
theorem instruction_timing_around_the_end :
    let range : AddressRange := ⟨0x0200, 0x0202, by decide⟩
    let bus : Bus := ⟨#[.ram ((Ram.new range).load 0 [0xBD, 0xFF, 0xFF])], .new⟩
    let m : Machine := { unreset bus .new none with registers := ⟨0, 1, 0, 0xFF, 0x0200, .clear⟩ }
    m.step.result = .ok 5 := by
  intro range bus m
  exact (@instruction_timing m ⟨0xBD, .lda, .absoluteX, 4⟩ ⟨rfl, by decide +kernel⟩
    (by decide +kernel)).1.trans (congrArg Except.ok (by decide +kernel))

end Machine

end Nmos6502
