import Nmos6502.Proofs.Machine.Reachable

/-!
# The non-maskable interrupt

A machine enters the interrupt (`Machine.EntersNmi`) exactly when it is at an instruction boundary, the
line is raised and the present assertion has not been answered (`Machine.entersNmi_iff`). What the
machine remembers of the assertion can be told from its history alone (`Machine.nmiAnswered_after`): it
is unanswered if, after every entry so far, the processor has noticed a release of the line. It does so
when it looks at its lines, and when it puts its own request on the released line; other sources act on
the line without its notice.

So the history tells when the interrupt is entered (`Machine.entersNmi_after_iff`), and an edge that
another source makes between two looks of the processor is lost (`Machine.exists_lost_edge`).
-/

namespace Nmos6502

namespace Entry

theorem accesses_append (s t : List Entry) : accesses (s ++ t) = accesses s ++ accesses t :=
  List.filter_append ..

theorem accesses_read (address : UInt16) (value : UInt8) (rest : List Entry) :
    accesses (.read address value :: rest) = .read address value :: accesses rest := rfl

theorem accesses_write (address : UInt16) (value : UInt8) (rest : List Entry) :
    accesses (.write address value :: rest) = .write address value :: accesses rest := rfl

theorem accesses_event (event : Event) (rest : List Entry) :
    accesses (.event event :: rest) = accesses rest := rfl

theorem accesses_events (events : List Event) : accesses (events.map .event) = [] := by
  unfold accesses
  rw [List.filter_eq_nil_iff]
  intro e he
  obtain ⟨event, -, rfl⟩ := List.mem_map.mp he
  exact Bool.false_ne_true

end Entry

namespace Registers

/-- Where a hardware interrupt continues. -/
def vector : Interrupt → UInt16
  | .nmi => nmiVector
  | .irq => irqVector

/-- The registers once an interrupt is entered. -/
def entered (r : Registers) (pc : UInt16) : Registers :=
  { r with pc := pc, sp := r.sp - 1 - 1 - 1, flags := { r.flags with interruptDisable := true } }

/-- What is put on the stack when an interrupt is entered. -/
def saved (r : Registers) : List Entry :=
  [.write (stackAddress r.sp) (highByte r.pc), .write (stackAddress (r.sp - 1)) (lowByte r.pc),
    .write (stackAddress (r.sp - 1 - 1)) r.flags.toByte]

/-- **Entering an interrupt**: the program counter and the status go onto the stack, and the program
goes on at the word that the vector holds. -/
theorem run_interrupt (r : Registers) (i : Interrupt) (bus : Bus) : ∃ low high,
    ((r.interrupt i).run bus).value = r.entered (word low high) ∧
    Entry.accesses ((r.interrupt i).run bus).journal =
      r.saved ++ [.read (vector i) low, .read (vector i + 1) high] := by
  unfold interrupt enter pushWord push
  simp only [Activity.run_bind, Activity.run_report, Activity.run_writeByte,
    Activity.run_pure, Activity.readWord_eq, Activity.run_readByte]
  refine ⟨_, _, rfl, ?_⟩
  simp only [Entry.accesses_append, Entry.accesses_read, Entry.accesses_write,
    Entry.accesses_event, Entry.accesses_events, List.append_nil]
  rfl

end Registers

namespace Machine

/-! ### A tick at an instruction boundary -/

/-- **The machine enters the non-maskable interrupt**: it is at an instruction boundary, and a tick puts
the program counter and the status onto the stack and goes on at the word that the vector holds. -/
def EntersNmi (m : Machine) : Prop :=
  m.cycles = 0 ∧ m.tick.result = .ok () ∧ ∃ low high,
    m.tick.machine.registers = m.registers.entered (word low high) ∧
    Entry.accesses m.tick.journal =
      m.registers.saved ++ [.read nmiVector low, .read (nmiVector + 1) high]

/-- The interrupt that the processor finds on its lines. -/
theorem sample_fst (m : Machine) : m.sample.1 =
    if m.nmi.isRaised = true ∧ m.nmiAnswered = false then some .nmi
    else if m.irq.isRaised && !m.registers.flags.interruptDisable then some .irq else none := by
  unfold sample
  dsimp only
  cases m.nmi.isRaised <;> cases m.nmiAnswered <;> rfl

theorem nmiAnswered_sample (m : Machine) : m.sample.2.nmiAnswered = m.nmi.isRaised := by
  unfold sample
  dsimp only
  split
  · next h =>
    obtain ⟨hr, -⟩ := Bool.and_eq_true_iff.mp h
    rw [hr]
  · rfl

theorem tick_of_run {m : Machine} (h : m.cycles = 0)
    {ran : Ran (Except IllegalOpcode (Registers × Nat))}
    (hr : (action m.registers m.sample.1).run m.bus = ran) :
    m.tick.journal = ran.journal ∧ m.tick.machine.nmiAnswered = m.nmi.isRaised ∧
      ∀ r cost, ran.value = .ok (r, cost) →
        m.tick.result = .ok () ∧ m.tick.machine.registers = r := by
  have hanswered := m.nmiAnswered_sample
  obtain ⟨i, answered, line, hs⟩ := m.sample_eq
  rw [hs] at hanswered hr
  rw [tick_of_cycles_eq_zero h]
  unfold fetch
  simp only [hs, perform_eq]
  dsimp only at hr
  rw [hr]
  rcases ran with ⟨value, bus, journal⟩
  cases value with
  | error e =>
    refine ⟨rfl, hanswered, fun r cost hv => ?_⟩
    cases hv
  | ok p =>
    refine ⟨List.append_nil _, hanswered, fun r cost hv => ?_⟩
    cases hv
    exact ⟨rfl, rfl⟩

theorem run_action_some (r : Registers) (i : Interrupt) (bus : Bus) :
    ((action r (some i)).run bus).value =
        .ok (((r.interrupt i).run bus).value, interruptCycles) ∧
      ((action r (some i)).run bus).journal = ((r.interrupt i).run bus).journal := by
  unfold action
  simp only [Activity.run_bind, Activity.run_pure, List.append_nil, and_self]

/-- An instruction begins with a read of its opcode. -/
theorem exists_journal_instruction (r : Registers) (bus : Bus) : ∃ code rest,
    Entry.accesses (r.instruction.run bus).journal = .read r.pc code :: rest := by
  unfold Registers.instruction
  simp only [Activity.run_bind, Activity.run_readByte, List.singleton_append, Entry.accesses_read]
  exact ⟨_, _, rfl⟩

/-- **The machine enters the non-maskable interrupt** exactly when it is at an instruction boundary, the
line is raised and its present assertion has not been answered. -/
theorem entersNmi_iff {m : Machine} :
    m.EntersNmi ↔ m.cycles = 0 ∧ m.nmi.isRaised = true ∧ m.nmiAnswered = false := by
  unfold EntersNmi
  constructor
  · rintro ⟨hz, -, low, high, -, haccesses⟩
    refine ⟨hz, ?_⟩
    have hjournal := (tick_of_run hz rfl).1
    by_contra hn
    rw [sample_fst, if_neg hn] at hjournal
    rw [hjournal] at haccesses
    split at haccesses
    · obtain ⟨low', high', -, hirq⟩ := m.registers.run_interrupt .irq m.bus
      rw [(run_action_some m.registers .irq m.bus).2, hirq] at haccesses
      have hvector := List.append_cancel_left haccesses
      simp only [List.cons.injEq, Entry.read.injEq] at hvector
      exact absurd hvector.1.1 (by decide)
    · obtain ⟨code, rest, hread⟩ := exists_journal_instruction m.registers m.bus
      rw [show action m.registers none = m.registers.instruction from rfl, hread] at haccesses
      cases haccesses
  · rintro ⟨hz, hraised, hanswered⟩
    obtain ⟨hjournal, -, hvalue⟩ := tick_of_run hz rfl
    rw [sample_fst, if_pos ⟨hraised, hanswered⟩] at hjournal hvalue
    obtain ⟨hv, hj⟩ := run_action_some m.registers .nmi m.bus
    obtain ⟨low, high, hregisters, haccesses⟩ := m.registers.run_interrupt .nmi m.bus
    obtain ⟨hresult, hafter⟩ := hvalue _ _ hv
    refine ⟨hz, hresult, low, high, ?_, ?_⟩
    · rw [hafter, hregisters]
    · rw [hjournal, hj, haccesses]
      rfl

/-! ### What a machine remembers -/

theorem nmiAnswered_tick (m : Machine) : m.tick.machine.nmiAnswered =
    if m.cycles = 0 then m.nmi.isRaised else m.nmiAnswered := by
  split
  · next hz => exact (tick_of_run hz rfl).2.1
  · next hz =>
    rw [tick_of_cycles_ne_zero hz]
    rfl

theorem nmiAnswered_step (m : Machine) : m.step.machine.nmiAnswered = m.tick.machine.nmiAnswered := by
  rw [step_eq]
  cases hr : m.tick.result with
  | error e => rw [Outcome.andThen_of_error hr]
  | ok u =>
    rw [Outcome.andThen_of_ok hr]
    rfl

namespace Act

/-- The processor enters the non-maskable interrupt. -/
def EntersNmi (m : Machine) (a : Act) : Prop :=
  (a = tick ∨ a = step) ∧ m.EntersNmi

/-- The processor notices that the line is released: it looks at its lines at an instruction boundary,
or is about to put its own request on the line. -/
def NoticesRelease (m : Machine) (a : Act) : Prop :=
  m.nmi.isRaised = false ∧ ((a = tick ∨ a = step) ∧ m.cycles = 0 ∨ a = setNmi true)

/-- The line goes from released to asserted. -/
def RaisesNmi (m : Machine) (a : Act) : Prop :=
  m.nmi.isRaised = false ∧ (a.apply m).nmi.isRaised = true

/-- Only a look at the lines and the processor's own request bear on what has been answered. -/
theorem nmiAnswered_apply_of_ne (m : Machine) {a : Act} (ht : a ≠ tick) (hs : a ≠ step)
    (hn : ∀ asserted, a ≠ setNmi asserted) : (a.apply m).nmiAnswered = m.nmiAnswered := by
  cases a with
  | tick => exact absurd rfl ht
  | step => exact absurd rfl hs
  | setNmi asserted => exact absurd rfl (hn asserted)
  | reset => rfl
  | setRegisters registers => rfl
  | bus change => rfl
  | setIrq asserted =>
    unfold apply Machine.setIrq updateIrq
    cases m.ownIrq <;> rfl
  | line i act =>
    cases i with
    | nmi => rfl
    | irq =>
      unfold apply updateLine updateIrq
      cases m.ownIrq <;> rfl

/-- An act leaves the present assertion unanswered if it does not answer it, and if it was so before
or a release is noticed. -/
theorem nmiAnswered_apply (m : Machine) (a : Act) : (a.apply m).nmiAnswered = false ↔
    ¬ a.EntersNmi m ∧ (a.NoticesRelease m ∨ m.nmiAnswered = false) := by
  unfold EntersNmi NoticesRelease
  by_cases hlook : a = tick ∨ a = step
  · have happly : (a.apply m).nmiAnswered =
        if m.cycles = 0 then m.nmi.isRaised else m.nmiAnswered := by
      rcases hlook with rfl | rfl
      · exact m.nmiAnswered_tick
      · exact m.nmiAnswered_step.trans m.nmiAnswered_tick
    have hown : a ≠ setNmi true := by
      rintro rfl
      simp at hlook
    rw [happly, entersNmi_iff]
    by_cases hz : m.cycles = 0
    · cases m.nmi.isRaised <;> cases m.nmiAnswered <;> simp [hz, hlook, hown]
    · simp [hz, hlook, hown]
  · by_cases hown : ∃ asserted, a = setNmi asserted
    · obtain ⟨asserted, rfl⟩ := hown
      have happly : ((setNmi asserted).apply m).nmiAnswered =
          (m.nmiAnswered && !(asserted && !m.nmi.isRaised)) := rfl
      rw [happly]
      cases asserted <;> cases m.nmi.isRaised <;> cases m.nmiAnswered <;> simp
    · have hn : ∀ asserted, a ≠ setNmi asserted := fun asserted h => hown ⟨asserted, h⟩
      rw [nmiAnswered_apply_of_ne m (fun h => hlook (Or.inl h)) (fun h => hlook (Or.inr h)) hn]
      simp [hlook, hn true]

end Act

/-! ### Histories -/

/-- Something happens at a place of a history that begins with a machine. -/
def Happens (what : Machine → Act → Prop) (m : Machine) (acts : List Act) (j : Nat) : Prop :=
  ∃ a, acts[j]? = some a ∧ what (m.after (acts.take j)) a

theorem Happens.lt {what : Machine → Act → Prop} {m : Machine} {acts : List Act} {j : Nat}
    (h : Happens what m acts j) : j < acts.length := by
  obtain ⟨a, ha, -⟩ := h
  exact (List.getElem?_eq_some_iff.mp ha).1

theorem happens_append_singleton {what : Machine → Act → Prop} {m : Machine} {acts : List Act}
    {a : Act} {j : Nat} : Happens what m (acts ++ [a]) j ↔
      Happens what m acts j ∨ j = acts.length ∧ what (m.after acts) a := by
  unfold Happens
  rcases Nat.lt_trichotomy j acts.length with hlt | rfl | hgt
  · rw [List.getElem?_append_left hlt, List.take_append_of_le_length (Nat.le_of_lt hlt)]
    simp [Nat.ne_of_lt hlt]
  · simp
  · have hnone : (acts ++ [a])[j]? = none := by
      rw [List.getElem?_eq_none_iff, List.length_append, List.length_singleton]
      exact hgt
    have hnone' : acts[j]? = none := List.getElem?_eq_none_iff.mpr (Nat.le_of_lt hgt)
    simp [hnone, hnone', Nat.ne_of_gt hgt]

/-- **The present assertion is unanswered** exactly when, after every entry into the interrupt so far,
a release of the line has been noticed. -/
theorem nmiAnswered_after {m : Machine} (h : m.nmiAnswered = false) (acts : List Act) :
    (m.after acts).nmiAnswered = false ↔
      ∀ j, Happens Act.EntersNmi m acts j → ∃ k, j < k ∧ Happens Act.NoticesRelease m acts k := by
  induction acts using List.reverseRecOn with
  | nil =>
    refine ⟨fun _ j hj => ?_, fun _ => h⟩
    exact absurd hj.lt (Nat.not_lt_zero j)
  | append_singleton acts a ih =>
    rw [after_append_singleton, Act.nmiAnswered_apply]
    simp only [happens_append_singleton]
    constructor
    · rintro ⟨hno, hor⟩ j (hj | ⟨-, hj⟩)
      · rcases hor with hnotice | hbefore
        · exact ⟨acts.length, hj.lt, Or.inr ⟨rfl, hnotice⟩⟩
        · obtain ⟨k, hk, hnotice⟩ := ih.mp hbefore j hj
          exact ⟨k, hk, Or.inl hnotice⟩
      · exact absurd hj hno
    · intro hall
      refine ⟨fun henter => ?_, ?_⟩
      · obtain ⟨k, hk, hnotice | ⟨rfl, -⟩⟩ := hall acts.length (Or.inr ⟨rfl, henter⟩)
        · exact absurd hnotice.lt (Nat.lt_asymm hk)
        · exact absurd hk (Nat.lt_irrefl _)
      · by_cases hnotice : a.NoticesRelease (m.after acts)
        · exact Or.inl hnotice
        · refine Or.inr (ih.mpr fun j hj => ?_)
          obtain ⟨k, hk, hk' | ⟨-, hk'⟩⟩ := hall j (Or.inl hj)
          · exact ⟨k, hk, hk'⟩
          · exact absurd hk' hnotice

theorem Started.nmiAnswered {m : Machine} (h : Started m) : m.nmiAnswered = false := by
  cases h <;> rfl

/-- **When the interrupt is entered.** After any history, the machine enters the non-maskable interrupt
exactly when it is at an instruction boundary, the line is raised, and after every earlier entry the
processor has noticed a release of the line. A release that is over before the processor looks again
is not noticed, and the assertion after it is not answered. -/
theorem entersNmi_after_iff {m : Machine} (h : Started m) (acts : List Act) :
    (m.after acts).EntersNmi ↔ (m.after acts).cycles = 0 ∧ (m.after acts).nmi.isRaised = true ∧
      ∀ j, Happens Act.EntersNmi m acts j → ∃ k, j < k ∧ Happens Act.NoticesRelease m acts k := by
  rw [entersNmi_iff, nmiAnswered_after h.nmiAnswered]

/-- A source raises the line, the processor enters the interrupt, the source lowers the line, the
processor notices that at the next instruction boundary, and the source raises the line again: the
interrupt is entered again. -/
theorem entersNmi_after_noticed_release : ((isolated (.empty .new)).1.after
    [.line .nmi .connect, .line .nmi (.set 1 true), .step, .line .nmi (.set 1 false), .step,
      .line .nmi (.set 1 true)]).EntersNmi := by
  refine (entersNmi_after_iff (.isolated (.empty .new)) _).mpr
    ⟨by decide +kernel, by decide +kernel, fun j hj => ⟨4, ?_, ?_⟩⟩
  · have hlt := hj.lt
    obtain ⟨a, ha, hor, henter⟩ := hj
    by_contra hge
    have hj : j = 4 ∨ j = 5 := by
      simp at hlt
      omega
    rcases hj with rfl | rfl
    · rw [entersNmi_iff] at henter
      exact absurd henter (by decide +kernel)
    · cases ha
      simp at hor
  · exact ⟨_, rfl, by decide +kernel, Or.inl ⟨Or.inr rfl, by decide +kernel⟩⟩

/-- **An edge can be lost.** A source raises the line, the processor enters the interrupt, and the source
lowers the line and raises it again: at the next instruction boundary the line is raised, and has gone
from released to asserted after the last entry, but the interrupt is not entered. -/
theorem exists_lost_edge : ∃ m acts, Started m ∧ (m.after acts).cycles = 0 ∧
    (m.after acts).nmi.isRaised = true ∧
    (∃ k, Happens Act.RaisesNmi m acts k ∧ ∀ j, Happens Act.EntersNmi m acts j → j < k) ∧
    ¬ (m.after acts).EntersNmi := by
  refine ⟨(isolated (.empty .new)).1, [.line .nmi .connect, .line .nmi (.set 1 true), .step,
    .line .nmi (.set 1 false), .line .nmi (.set 1 true)], .isolated (.empty .new), ?_, ?_,
    ⟨4, ?_, fun j hj => ?_⟩, ?_⟩
  · decide +kernel
  · decide +kernel
  · exact ⟨_, rfl, by decide +kernel, by decide +kernel⟩
  · have hlt := hj.lt
    obtain ⟨a, ha, hor, -⟩ := hj
    by_contra hge
    obtain rfl : j = 4 := by
      simp at hlt
      omega
    cases ha
    simp at hor
  · rw [entersNmi_iff]
    decide +kernel

end Machine

end Nmos6502
