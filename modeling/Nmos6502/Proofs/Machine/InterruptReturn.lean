import Nmos6502.Proofs.Bus.Memory
import Nmos6502.Proofs.Machine.Boundary

/-!
# Returning from interrupts

A hardware interrupt and a `BRK` are entered in the same way (`Machine.begun_of_takes`): the address
to come back to and the status go onto the stack, and nothing else is written. So the entry changes three
cells of RAM at most (`Machine.entersBy_of_takes`). An `RTI` takes the same three bytes off the stack
(`Machine.step_of_return`), and if they are still what they were, it takes the program back to where it
was, with the flags that it had (`Machine.returns_to_interrupted`).
-/

namespace Nmos6502

/-- What makes the processor leave the program. -/
inductive Cause
  | interrupt (i : Interrupt)
  | softwareBreak

namespace Registers

/-- The addresses on the stack that hold the way back. -/
def slots (sp : UInt8) : List UInt16 :=
  [stackAddress sp, stackAddress (sp - 1), stackAddress (sp - 2)]

end Registers

namespace Cause

/-- Where the program goes on when the processor comes back. A `BRK` is left by two bytes. -/
def back (pc : UInt16) : Cause → UInt16
  | interrupt _ => pc
  | softwareBreak => pc + 2

/-- The status that goes onto the stack. -/
def status (f : Flags) : Cause → UInt8
  | interrupt _ => f.toByte
  | softwareBreak => f.toByte ||| Flags.breakBit

/-- Where the word stands at which the processor goes on. -/
def vector : Cause → UInt16
  | interrupt i => Registers.vector i
  | softwareBreak => irqVector

/-- The ticks that it takes. -/
def cost : Cause → Nat
  | interrupt _ => 8
  | softwareBreak => 7

/-- What goes onto the stack. -/
def pushed (r : Registers) (cause : Cause) : List Entry :=
  [.write (Registers.stackAddress r.sp) (highByte (cause.back r.pc)),
    .write (Registers.stackAddress (r.sp - 1)) (lowByte (cause.back r.pc)),
    .write (Registers.stackAddress (r.sp - 1 - 1)) (cause.status r.flags)]

theorem bits_status (f : Flags) (cause : Cause) :
    (cause.status f &&& Flags.unused != 0) = true ∧
      ((cause.status f &&& Flags.breakBit != 0) = true ↔ cause = .softwareBreak) := by
  have hall : ∀ n v d i z c : Bool,
      let b := (⟨n, v, d, i, z, c⟩ : Flags).toByte
      (b &&& Flags.unused != 0) = true ∧ (b &&& Flags.breakBit != 0) = false ∧
        ((b ||| Flags.breakBit) &&& Flags.unused != 0) = true ∧
        ((b ||| Flags.breakBit) &&& Flags.breakBit != 0) = true := by decide +kernel
  rcases f with ⟨n, v, d, i, z, c⟩
  obtain ⟨hunused, hclear, hunused', hset⟩ := hall n v d i z c
  cases cause with
  | interrupt i =>
    refine ⟨hunused, ?_⟩
    simp [status, hclear]
  | softwareBreak =>
    refine ⟨hunused', ?_⟩
    simp [status, hset]

/-- The status stands for the flags. -/
theorem ofByte_status (f : Flags) (cause : Cause) : Flags.ofByte (cause.status f) = f := by
  cases cause with
  | interrupt i => exact f.ofByte_toByte
  | softwareBreak => exact f.ofByte_toByte_or_breakBit

end Cause

/-- The instruction `BRK` is carried out. -/
theorem Registers.run_instruction_of_brk {r : Registers} {bus : Bus}
    (h : Opcode.decode? (bus.peek r.pc) = some ⟨0x00, .brk, .implied, 7⟩) : ∃ low high,
    (r.instruction.run bus).value = .ok (r.entered (word low high), Cause.softwareBreak.cost) ∧
    Entry.accesses (r.instruction.run bus).journal =
      [.read r.pc (bus.peek r.pc)] ++ (Cause.softwareBreak.pushed r ++
        [.read irqVector low, .read (irqVector + 1) high]) := by
  have hback : r.pc + UInt16.ofNat 1 + 1 = r.pc + 2 := by
    rw [UInt16.add_assoc]
    rfl
  unfold instruction
  rw [Activity.run_bind, Activity.run_readByte]
  dsimp only
  rw [h]
  unfold execute locate perform enter pushWord push
  dsimp only [Instruction.effect]
  simp only [Activity.run_bind, Activity.run_report, Activity.run_writeByte, Activity.run_pure,
    Activity.readWord_eq, Activity.run_readByte]
  refine ⟨_, _, rfl, ?_⟩
  simp only [Entry.accesses_append, Entry.accesses_read, Entry.accesses_write,
    Entry.accesses_event, Entry.accesses_events, List.append_nil]
  unfold Cause.pushed Cause.back
  rw [← hback]
  rfl

namespace Machine

variable {m : Machine} {cause : Cause}

/-- The machine is about to leave the program. -/
def Takes (m : Machine) : Cause → Prop
  | .interrupt i => m.cycles = 0 ∧ m.sample.1 = some i
  | .softwareBreak => m.IsAtInstruction ∧ m.bus.peek m.registers.pc = 0x00

theorem Takes.cycles_eq_zero (h : m.Takes cause) : m.cycles = 0 := by
  cases cause with
  | interrupt i => exact h.1
  | softwareBreak => exact h.1.1

/-- **Leaving the program** is the same for all causes, but for what goes onto the stack. -/
theorem begun_of_takes (h : m.Takes cause) : ∃ low high earlier,
    m.begun.value = .ok (m.registers.entered (word low high), cause.cost) ∧
    Entry.accesses m.begun.journal = earlier ++ (cause.pushed m.registers ++
      [.read cause.vector low, .read (cause.vector + 1) high]) ∧
    ∀ address value, .write address value ∉ earlier := by
  cases cause with
  | interrupt i =>
    obtain ⟨hz, hs⟩ := h
    have hbegun : m.begun = (action m.registers (some i)).run m.bus := by
      unfold begun
      rw [hs]
    obtain ⟨hvalue, hjournal⟩ := run_action_some m.registers i m.bus
    obtain ⟨low, high, hregisters, haccesses⟩ := m.registers.run_interrupt i m.bus
    refine ⟨low, high, [], ?_, ?_, fun _ _ => List.not_mem_nil⟩
    · rw [hbegun, hvalue, hregisters]
      rfl
    · rw [hbegun, hjournal, haccesses]
      rfl
  | softwareBreak =>
    obtain ⟨hat, hpeek⟩ := h
    have hop : Opcode.decode? (m.bus.peek m.registers.pc) = some ⟨0x00, .brk, .implied, 7⟩ := by
      rw [hpeek, Opcode.decode?_eq_find?]
      rfl
    obtain ⟨low, high, hvalue, haccesses⟩ := Registers.run_instruction_of_brk hop
    rw [← hat.begun_eq] at hvalue haccesses
    refine ⟨low, high, _, hvalue, haccesses, ?_⟩
    simp

/-! ### Entries -/

/-- **The machine leaves the program**: the stack pointer goes down by three and requests are masked,
the stack holds what was pushed, and no other cell of RAM has changed. -/
structure LeavesBy (m : Machine) (cause : Cause) : Prop where
  result : m.step.result = .ok cause.cost
  cycles : m.step.machine.cycles = 0
  registers : m.step.machine.registers =
    { m.registers with
      pc := m.step.machine.registers.pc
      sp := m.registers.sp - 3
      flags := { m.registers.flags with interruptDisable := true } }
  peek_high : m.step.machine.bus.peek (Registers.stackAddress m.registers.sp) =
    highByte (cause.back m.registers.pc)
  peek_low : m.step.machine.bus.peek (Registers.stackAddress (m.registers.sp - 1)) =
    lowByte (cause.back m.registers.pc)
  peek_status : m.step.machine.bus.peek (Registers.stackAddress (m.registers.sp - 2)) =
    cause.status m.registers.flags
  /-- Bit 5 of the status is set, and bit 4 for a `BRK` alone. -/
  bits_status : (cause.status m.registers.flags &&& Flags.unused != 0) = true ∧
    ((cause.status m.registers.flags &&& Flags.breakBit != 0) = true ↔ cause = .softwareBreak)
  ram {i : Nat} {ram : Ram} : m.bus.device? i = some (.ram ram) → ∃ after,
    m.step.machine.bus.device? i = some (.ram after) ∧ after.range = ram.range ∧
      ∀ offset, (∀ address ∈ Registers.slots m.registers.sp, m.bus.owner? address = some i →
        (ram.range.offset address).toNat ≠ offset) → after.cell offset = ram.cell offset

/-- What happens on the bus: the only writes are those onto the stack. -/
theorem bus_step_of_takes (h : m.Takes cause) : ∃ earlier later : List Entry,
    (∀ address value, .write address value ∉ earlier ∧ .write address value ∉ later) ∧
    m.step.machine.bus = m.bus.after (Entry.acts (earlier ++
      .write (Registers.stackAddress m.registers.sp) (highByte (cause.back m.registers.pc)) ::
      .write (Registers.stackAddress (m.registers.sp - 1)) (lowByte (cause.back m.registers.pc)) ::
      .write (Registers.stackAddress (m.registers.sp - 2)) (cause.status m.registers.flags) ::
      later)) := by
  obtain ⟨low, high, earlier, hvalue, haccesses, hearlier⟩ := begun_of_takes h
  have htwo : m.registers.sp - 1 - 1 = m.registers.sp - 2 := by grind
  refine ⟨earlier, [.read cause.vector low, .read (cause.vector + 1) high],
    fun address value => ⟨hearlier address value, by simp⟩, ?_⟩
  rw [step_of_begun_ok h.cycles_eq_zero hvalue, ← htwo]
  refine (Activity.run_bus_accesses _ m.bus).trans ?_
  exact congrArg (fun journal => m.bus.after (Entry.acts journal)) haccesses

theorem leavesBy_of_takes (h : m.Takes cause)
    (hram : ∀ address ∈ Registers.slots m.registers.sp, m.bus.IsRam address) :
    m.LeavesBy cause := by
  obtain ⟨low, high, -, hvalue, -⟩ := begun_of_takes h
  obtain ⟨earlier, later, hreads, hbus⟩ := bus_step_of_takes h
  have hstep := step_of_begun_ok h.cycles_eq_zero hvalue
  have hthree : m.registers.sp - 1 - 1 - 1 = m.registers.sp - 3 := by grind
  have hne₁ : m.registers.sp ≠ m.registers.sp - 1 := by grind
  have hne₂ : m.registers.sp ≠ m.registers.sp - 2 := by grind
  have hne₃ : m.registers.sp - 1 ≠ m.registers.sp - 2 := by grind
  obtain ⟨hhigh, hlow, hstatus⟩ : m.bus.IsRam (Registers.stackAddress m.registers.sp) ∧
      m.bus.IsRam (Registers.stackAddress (m.registers.sp - 1)) ∧
      m.bus.IsRam (Registers.stackAddress (m.registers.sp - 2)) := by
    simpa [Registers.slots] using hram
  refine ⟨by rw [hstep], by rw [hstep], ?_, ?_, ?_, ?_, cause.bits_status _, ?_⟩
  · rw [hstep]
    unfold Registers.entered
    rw [hthree]
  · rw [hbus]
    refine hhigh.peek_after_write earlier fun other hmem => ?_
    simp [hne₁, hne₂, hreads] at hmem
  · rw [hbus, List.append_cons earlier]
    refine hlow.peek_after_write _ fun other hmem => ?_
    simp [hne₃, hreads] at hmem
  · rw [hbus, List.append_cons earlier, List.append_cons (earlier ++ _)]
    exact hstatus.peek_after_write _ fun other hmem => absurd hmem (hreads _ other).2
  · intro i ram hi
    rw [hbus]
    obtain ⟨after, hafter, hrange, hcell⟩ := Bus.cell_after_of_not_written hi _
    refine ⟨after, hafter, hrange, fun offset hoffset => hcell offset fun address value hmem => ?_⟩
    refine hoffset address ?_
    simp only [List.mem_append, List.mem_cons, Entry.write.injEq, hreads, false_or, or_false] at hmem
    unfold Registers.slots
    simp only [List.mem_cons, List.not_mem_nil, or_false]
    exact hmem.imp And.left (Or.imp And.left And.left)

/-! ### Returns -/

/-- **The machine comes back**: the program goes on at an address with the flags and the stack pointer
that it had, and nothing else of the registers or of RAM has changed. -/
structure ComesBack (m : Machine) (back : UInt16) (sp : UInt8) (flags : Flags) : Prop where
  result : m.step.result = .ok 6
  cycles : m.step.machine.cycles = 0
  registers : m.step.machine.registers =
    { m.registers with pc := back, sp := sp, flags := flags }
  ram {i : Nat} {ram : Ram} : m.bus.device? i = some (.ram ram) →
    m.step.machine.bus.device? i = some (.ram ram)

end Machine

/-- The instruction `RTI` takes three bytes off the stack and writes nothing. -/
theorem Registers.run_instruction_of_rti {r : Registers} {bus : Bus} {sp : UInt8}
    (h : Opcode.decode? (bus.peek r.pc) = some ⟨0x40, .rti, .implied, 6⟩) (hsp : r.sp = sp - 3)
    (hmemory : ∀ address ∈ slots sp, bus.IsMemory address) :
    (r.instruction.run bus).value =
      .ok ({ r with
        pc := word (bus.peek (stackAddress (sp - 1))) (bus.peek (stackAddress sp))
        sp := sp
        flags := Flags.ofByte (bus.peek (stackAddress (sp - 2))) }, 6) ∧
    ∀ address value, .write address value ∉ Entry.accesses (r.instruction.run bus).journal := by
  have h₁ : r.sp + 1 = sp - 2 := by grind
  have h₂ : sp - 2 + 1 = sp - 1 := by grind
  have h₃ : sp - 1 + 1 = sp := UInt8.sub_add_cancel sp 1
  -- The read of the opcode may change the bus, but neither what is memory nor what it holds.
  have hafter : ∀ address ∈ slots sp, (bus.afterRead r.pc).afterRead address = bus.afterRead r.pc ∧
      (bus.afterRead r.pc).peek address = bus.peek address := by
    intro address ha
    have hstay : (bus.after (Entry.acts [.read r.pc 0])).peek address = bus.peek address :=
      (hmemory address ha).peek_after fun _ value hmem => by simp at hmem
    exact ⟨((hmemory address ha).after [.read r.pc]).afterRead, hstay⟩
  obtain ⟨⟨hkeep₃, hpeek₃⟩, ⟨hkeep₂, hpeek₂⟩, ⟨hkeep₁, hpeek₁⟩⟩ := by
    simpa [slots] using hafter
  unfold instruction
  rw [Activity.run_bind, Activity.run_readByte]
  dsimp only
  rw [h]
  unfold execute locate perform pullWord pull
  dsimp only [Instruction.effect]
  simp only [Activity.run_bind, Activity.run_report, Activity.run_pure, Activity.run_readByte, h₁, h₂,
    h₃, hkeep₁, hkeep₂, hpeek₁, hpeek₂, hpeek₃]
  refine ⟨rfl, fun address value hmem => ?_⟩
  simp [Entry.accesses] at hmem

namespace Machine

variable {m : Machine} {cause : Cause}

/-- **An `RTI`** takes the program back to what is on the stack. -/
theorem comesBack_of_return {back : UInt16} {sp status : UInt8} (h : m.IsAtInstruction)
    (hop : m.bus.peek m.registers.pc = 0x40) (hsp : m.registers.sp = sp - 3)
    (hmemory : ∀ address ∈ Registers.slots sp, m.bus.IsMemory address)
    (hhigh : m.bus.peek (Registers.stackAddress sp) = highByte back)
    (hlow : m.bus.peek (Registers.stackAddress (sp - 1)) = lowByte back)
    (hstatus : m.bus.peek (Registers.stackAddress (sp - 2)) = status) :
    m.ComesBack back sp (Flags.ofByte status) := by
  have hdecode : Opcode.decode? (m.bus.peek m.registers.pc) = some ⟨0x40, .rti, .implied, 6⟩ := by
    rw [hop, Opcode.decode?_eq_find?]
    rfl
  obtain ⟨hvalue, hwrites⟩ := Registers.run_instruction_of_rti hdecode hsp hmemory
  rw [hhigh, hlow, hstatus, word_lowByte_highByte, ← h.begun_eq] at hvalue
  rw [← h.begun_eq] at hwrites
  have hstep := step_of_begun_ok h.1 hvalue
  refine ⟨by rw [hstep], by rw [hstep], by rw [hstep], fun {i ram} hi => ?_⟩
  have hbus : m.step.machine.bus = m.bus.after (Entry.acts (Entry.accesses m.begun.journal)) := by
    rw [hstep]
    exact Activity.run_bus_accesses _ m.bus
  rw [hbus]
  exact Bus.ram_after_of_no_write hi hwrites

/-- **To return undoes the entry.** A machine leaves the program with three bytes on the stack. Any
machine that comes to an `RTI` with the stack pointer and these bytes as they were then goes on where
the first one left, with its flags and its stack pointer. -/
theorem returns_to_interrupted (h : m.Takes cause)
    (hram : ∀ address ∈ Registers.slots m.registers.sp, m.bus.IsRam address) :
    m.LeavesBy cause ∧ ∀ t : Machine, t.IsAtInstruction → t.bus.peek t.registers.pc = 0x40 →
      t.registers.sp = m.step.machine.registers.sp →
      (∀ address ∈ Registers.slots m.registers.sp, t.bus.IsMemory address ∧
        t.bus.peek address = m.step.machine.bus.peek address) →
      t.ComesBack (cause.back m.registers.pc) m.registers.sp m.registers.flags := by
  have hleaves := leavesBy_of_takes h hram
  refine ⟨hleaves, fun t hat hop hsp hkept => ?_⟩
  rw [hleaves.registers] at hsp
  obtain ⟨⟨-, hhigh⟩, ⟨-, hlow⟩, ⟨-, hstatus⟩⟩ := by
    simpa [Registers.slots] using hkept
  have hback := comesBack_of_return hat hop hsp (fun address ha => (hkept address ha).1)
    (hhigh.trans hleaves.peek_high) (hlow.trans hleaves.peek_low)
    (hstatus.trans hleaves.peek_status)
  rw [Cause.ofByte_status] at hback
  exact hback

/-- An interrupt request is answered by a bare `RTI`. The stack pointer is so low that the status goes to
the top of the page. -/
theorem returns_to_interrupted_by_irq :
    let bottom : AddressRange := ⟨0x0100, 0x0107, by decide⟩
    let top : AddressRange := ⟨0x01F8, 0x01FF, by decide⟩
    let vectors : AddressRange := ⟨0xFFFE, 0xFFFF, by decide⟩
    let bus : Bus := ⟨#[.ram (Ram.new bottom), .ram ((Ram.new top).load 0 [0x40]),
      .ram ((Ram.new vectors).load 0 [0xF8, 0x01])], InterruptLine.new.set InterruptLine.owner true⟩
    let m : Machine := { unreset bus .new none with
      registers := ⟨1, 2, 3, 0x01, 0x1234, { Flags.clear with carry := true }⟩ }
    m.step.machine.registers.pc = 0x01F8 ∧ m.step.machine.registers.sp = 0xFE ∧
      m.step.machine.bus.peek 0x01FF = 0x21 ∧ m.step.machine.step.machine.registers = m.registers := by
  intro bottom top vectors bus m
  have htakes : m.Takes (.interrupt .irq) := ⟨rfl, by decide +kernel⟩
  have hslots : ∀ address ∈ Registers.slots m.registers.sp, m.bus.IsRam address := by
    have howners : (Registers.slots m.registers.sp).map bus.owner? = [some 0, some 0, some 1] := by
      decide +kernel
    obtain ⟨h₀, h₁, h₂⟩ := by simpa [Registers.slots] using howners
    rw [Registers.slots, List.forall_mem_cons, List.forall_mem_cons, List.forall_mem_singleton]
    exact ⟨⟨0, _, Bus.isFirst_iff.mpr ⟨h₀, rfl⟩⟩, ⟨0, _, Bus.isFirst_iff.mpr ⟨h₁, rfl⟩⟩,
      ⟨1, _, Bus.isFirst_iff.mpr ⟨h₂, rfl⟩⟩⟩
  obtain ⟨hleaves, hreturns⟩ := returns_to_interrupted htakes hslots
  obtain ⟨earlier, later, -, hbus⟩ := bus_step_of_takes htakes
  have hback := hreturns m.step.machine ⟨hleaves.cycles, by decide +kernel⟩ (by decide +kernel) rfl
    fun address ha => ⟨by rw [hbus]; exact ((hslots address ha).after _).isMemory, rfl⟩
  refine ⟨by decide +kernel, by decide +kernel, ?_, ?_⟩
  · have htop : Registers.stackAddress (m.registers.sp - 2) = 0x01FF := by decide +kernel
    rw [← htop, hleaves.peek_status]
    decide +kernel
  · rw [hback.registers, hleaves.registers]
    rfl

end Machine

end Nmos6502
