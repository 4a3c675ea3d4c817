import Nmos6502.Proofs.Machine.NonMaskable

/-!
# Instruction boundaries

At an instruction boundary the processor looks at its lines and carries out one activity on its bus
(`Machine.begun`); the tick there ends with what this activity leads to (`Machine.tick_of_begun_ok`,
`Machine.tick_of_begun_error`), and a step ends with the same bus and the same lines
(`Machine.lines_step`). Unless the activity is the entry into the non-maskable interrupt, the
processor goes on (`Machine.GoesOn`): with the interrupt request if that is raised and not masked,
and with the instruction at its program counter otherwise.
-/

namespace Nmos6502

namespace Machine

/-- What the processor carries out at an instruction boundary. -/
def begun (m : Machine) : Ran (Except IllegalOpcode (Registers × Nat)) :=
  (action m.registers m.sample.1).run m.bus

theorem sample_snd (m : Machine) : m.sample.2 =
    { m with
      nmiAnswered := m.nmi.isRaised
      nmi := if m.nmi.isRaised = true ∧ m.nmiAnswered = false then
          m.nmi.set InterruptLine.owner false
        else m.nmi } := by
  unfold sample
  dsimp only
  cases m.nmi.isRaised <;> cases m.nmiAnswered <;> rfl

theorem tick_of_begun_ok {m : Machine} (h : m.cycles = 0) {r : Registers} {cost : Nat}
    (hr : m.begun.value = .ok (r, cost)) : m.tick =
      ⟨.ok (), { m.sample.2 with
        registers := r, cycles := cost - 1, totalCycles := m.totalCycles + 1, bus := m.begun.bus },
        m.begun.journal⟩ := by
  obtain ⟨i, answered, line, hs⟩ := m.sample_eq
  unfold begun at hr ⊢
  rw [hs] at hr ⊢
  rw [tick_of_cycles_eq_zero h]
  unfold fetch
  simp only [hs, perform_eq]
  dsimp only at hr ⊢
  rw [hr]
  unfold Outcome.andThen
  dsimp only
  rw [List.append_nil]
  rfl

theorem tick_of_begun_error {m : Machine} (h : m.cycles = 0) {e : IllegalOpcode}
    (hr : m.begun.value = .error e) :
    m.tick = ⟨.error e, { m.sample.2 with bus := m.begun.bus }, m.begun.journal⟩ := by
  obtain ⟨i, answered, line, hs⟩ := m.sample_eq
  unfold begun at hr ⊢
  rw [hs] at hr ⊢
  rw [tick_of_cycles_eq_zero h]
  unfold fetch
  simp only [hs, perform_eq]
  dsimp only at hr ⊢
  rw [hr]
  rfl

/-- The machine is at an instruction boundary and takes no interrupt there. -/
def IsAtInstruction (m : Machine) : Prop :=
  m.cycles = 0 ∧ m.sample.1 = none

theorem isAtInstruction_iff {m : Machine} : m.IsAtInstruction ↔ m.cycles = 0 ∧
    (m.nmi.isRaised = true → m.nmiAnswered = true) ∧
    (m.irq.isRaised = true → m.registers.flags.interruptDisable = true) := by
  unfold IsAtInstruction
  rw [sample_fst]
  cases m.nmi.isRaised <;> cases m.nmiAnswered <;> simp

/-- There the instruction at the program counter is carried out. -/
theorem IsAtInstruction.begun_eq {m : Machine} (h : m.IsAtInstruction) :
    m.begun = m.registers.instruction.run m.bus := by
  unfold begun
  rw [h.2]
  rfl

theorem IsAtInstruction.sample_snd {m : Machine} (h : m.IsAtInstruction) :
    m.sample.2 = { m with nmiAnswered := m.nmi.isRaised } := by
  obtain ⟨-, hnmi, -⟩ := isAtInstruction_iff.mp h
  rw [m.sample_snd, if_neg fun hc => ?_]
  rw [hnmi hc.1] at hc
  exact Bool.noConfusion hc.2

/-! ### A step from an instruction boundary -/

theorem step_of_begun_ok {m : Machine} (h : m.cycles = 0) {r : Registers} {cost : Nat}
    (hr : m.begun.value = .ok (r, cost)) : m.step =
      ⟨.ok cost, { m.sample.2 with
        registers := r, cycles := 0, totalCycles := m.totalCycles + cost, bus := m.begun.bus },
        m.begun.journal⟩ := by
  obtain ⟨hmin, -⟩ := (yields_action m.registers m.sample.1).value m.bus r cost hr
  have hcost : cost - 1 + 1 = cost := by omega
  rw [step_eq, tick_of_begun_ok h hr]
  unfold Outcome.andThen finish
  dsimp only
  rw [List.append_nil, hcost, Nat.add_assoc, Nat.add_comm 1, hcost]

/-! ### Lines and bus after a tick or a step -/

/-- A tick changes the bus by what is begun, and the lines of the processor only in that its own request
on the non-maskable interrupt line is withdrawn when that is answered. -/
theorem lines_tick (m : Machine) :
    m.tick.machine.bus = (if m.cycles = 0 then m.begun.bus else m.bus) ∧
      m.tick.machine.ownIrq = m.ownIrq ∧
      (m.tick.machine.nmi = m.nmi ∨
        m.tick.machine.nmi = m.nmi.set InterruptLine.owner false) := by
  by_cases hz : m.cycles = 0
  · have hnmi : m.sample.2.nmi = m.nmi ∨
        m.sample.2.nmi = m.nmi.set InterruptLine.owner false := by
      rw [sample_snd]
      dsimp only
      split
      · exact Or.inr rfl
      · exact Or.inl rfl
    have hown : m.sample.2.ownIrq = m.ownIrq := by
      rw [sample_snd]
    rw [if_pos hz]
    cases hr : m.begun.value with
    | error e =>
      rw [tick_of_begun_error hz hr]
      exact ⟨rfl, hown, hnmi⟩
    | ok p =>
      rw [tick_of_begun_ok hz hr]
      exact ⟨rfl, hown, hnmi⟩
  · rw [if_neg hz, tick_of_cycles_ne_zero hz]
    exact ⟨rfl, rfl, Or.inl rfl⟩

theorem lines_step (m : Machine) : m.step.machine.bus = m.tick.machine.bus ∧
    m.step.machine.ownIrq = m.tick.machine.ownIrq ∧
    m.step.machine.nmi = m.tick.machine.nmi := by
  rw [step_eq]
  cases hr : m.tick.result with
  | error e =>
    rw [Outcome.andThen_of_error hr]
    exact ⟨rfl, rfl, rfl⟩
  | ok u =>
    rw [Outcome.andThen_of_ok hr]
    exact ⟨rfl, rfl, rfl⟩

/-- To run with a budget is to step a number of times. -/
theorem exists_runFor_eq_after (m : Machine) (budget : Nat) :
    ∃ k, (m.runFor budget).machine = m.after (List.replicate k .step) := by
  have hsteps : ∀ k, ∃ j, (m.steps k).machine = m.after (List.replicate j .step) := by
    intro k
    induction k with
    | zero => exact ⟨0, rfl⟩
    | succ k ih =>
      obtain ⟨j, hj⟩ := ih
      unfold steps
      cases hk : (m.steps k).result with
      | error e =>
        rw [Outcome.andThen_of_error hk]
        exact ⟨j, hj⟩
      | ok t =>
        rw [Outcome.andThen_of_ok hk]
        refine ⟨j + 1, ?_⟩
        rw [List.replicate_succ', after_append_singleton, ← hj]
        rfl
  obtain ⟨k, hrun⟩ := m.exists_runFor_eq_steps budget
  rw [hrun]
  exact hsteps k

/-! ### Going on -/

/-- **The machine enters the interrupt request**: it is at an instruction boundary, and a tick puts the
program counter and the status onto the stack and goes on at the word that the vector holds. -/
def EntersIrq (m : Machine) : Prop :=
  m.cycles = 0 ∧ m.tick.result = .ok () ∧ ∃ low high,
    m.tick.machine.registers = m.registers.entered (word low high) ∧
    Entry.accesses m.tick.journal =
      m.registers.saved ++ [.read irqVector low, .read (irqVector + 1) high]

/-- **The machine carries out an instruction**: it is at an instruction boundary, and a tick does what the
instruction at the program counter does. -/
def CarriesOutInstruction (m : Machine) : Prop :=
  m.cycles = 0 ∧ m.tick.journal = (m.registers.instruction.run m.bus).journal ∧
    m.tick.machine.bus = (m.registers.instruction.run m.bus).bus ∧
    match (m.registers.instruction.run m.bus).value with
    | .error e => m.tick.result = .error e ∧ m.tick.machine.registers = m.registers ∧
        m.tick.machine.cycles = 0
    | .ok (r, cost) => m.tick.result = .ok () ∧ m.tick.machine.registers = r ∧
        m.tick.machine.cycles + 1 = cost

/-- At an instruction boundary the machine goes on with the interrupt request or the next
instruction. -/
def GoesOn (m : Machine) : Prop :=
  if m.irq.isRaised = true ∧ m.registers.flags.interruptDisable = false then m.EntersIrq
  else m.CarriesOutInstruction

theorem entersIrq_of_sample {m : Machine} (hz : m.cycles = 0) (hs : m.sample.1 = some .irq) :
    m.EntersIrq := by
  obtain ⟨hvalue, hjournal⟩ := run_action_some m.registers .irq m.bus
  obtain ⟨low, high, hregisters, haccesses⟩ := m.registers.run_interrupt .irq m.bus
  have hbegun : m.begun = (action m.registers (some .irq)).run m.bus := by
    unfold begun
    rw [hs]
  rw [← hbegun] at hvalue hjournal
  unfold EntersIrq
  rw [tick_of_begun_ok hz hvalue]
  refine ⟨hz, rfl, low, high, hregisters, ?_⟩
  rw [hjournal, haccesses]
  rfl

theorem carriesOutInstruction_of_sample {m : Machine} (hz : m.cycles = 0)
    (hs : m.sample.1 = none) : m.CarriesOutInstruction := by
  have hbegun : m.begun = m.registers.instruction.run m.bus := by
    unfold begun
    rw [hs]
    rfl
  have hcost := m.registers.yields_instruction.value m.bus
  unfold CarriesOutInstruction
  rw [← hbegun] at hcost ⊢
  cases hr : m.begun.value with
  | error e =>
    rw [tick_of_begun_error hz hr, sample_snd]
    exact ⟨hz, rfl, rfl, rfl, rfl, hz⟩
  | ok p =>
    obtain ⟨r, cost⟩ := p
    obtain ⟨hmin, -⟩ := hcost r cost hr
    rw [tick_of_begun_ok hz hr]
    exact ⟨hz, rfl, rfl, rfl, rfl, Nat.sub_add_cancel (Nat.le_of_succ_le hmin)⟩

/-- **At every instruction boundary** the machine enters the non-maskable interrupt or goes on. -/
theorem goesOn_of_not_entersNmi {m : Machine} (hz : m.cycles = 0) (h : ¬ m.EntersNmi) :
    m.GoesOn := by
  have hs := m.sample_fst
  rw [if_neg fun hn => h (entersNmi_iff.mpr ⟨hz, hn⟩)] at hs
  unfold GoesOn
  split
  · next hirq =>
    rw [if_pos (by simp [hirq.1, hirq.2])] at hs
    exact entersIrq_of_sample hz hs
  · next hirq =>
    rw [if_neg (by simpa using hirq)] at hs
    exact carriesOutInstruction_of_sample hz hs

end Machine

end Nmos6502
