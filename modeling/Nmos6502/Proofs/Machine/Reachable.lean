import Mathlib.Data.List.Induction
import Nmos6502.Proofs.InterruptLine.Sources
import Nmos6502.Proofs.Machine.Runs

/-!
# Reachable machines

What can happen to a machine (`Machine.Act`): the operations of the processor, its own requests on the
interrupt lines, the operations of any other source on them, and any change to the bus. A machine is
reachable if it comes about in this way from a processor just put on a bus (`Machine.Reachable`); to
run with a budget is to step, and leads to reachable machines too (`Machine.Reachable.runFor`). In
every reachable machine at most seven ticks remain of the instruction under way
(`Machine.Reachable.cycles_le`), and ticks, steps and budgets are three ways to the same run
(`Machine.Reachable.timing`), but for a budget whose target does not fit in 64 bits.
-/

namespace Nmos6502

namespace Machine

/-- What may happen to a machine. -/
inductive Act
  | tick
  | step
  | reset
  | setRegisters (registers : Registers)
  | setNmi (asserted : Bool)
  | setIrq (asserted : Bool)
  /-- A source of a line acts on it. -/
  | line (i : Interrupt) (act : LineAct)
  /-- Anything happens to the bus: an access, a clock, a device that is attached, driven or taken off. -/
  | bus (change : Bus → Bus)

/-- The machine afterwards. -/
def Act.apply (m : Machine) : Act → Machine
  | tick => m.tick.machine
  | step => m.step.machine
  | reset => m.reset.1
  | setRegisters registers => { m with registers := registers }
  | setNmi asserted => m.setNmi asserted
  | setIrq asserted => m.setIrq asserted
  | line i act => m.updateLine i fun line => act.apply line
  | bus change => m.onBus change

/-- A processor just put on a bus. -/
inductive Started : Machine → Prop
  | connected (bus : Bus) (nmi : InterruptLine) : Started (connected bus nmi).1
  | isolated (bus : Bus) : Started (isolated bus).1

/-- The machine after a history. -/
def after (m : Machine) (acts : List Act) : Machine :=
  acts.foldl Act.apply m

/-- A machine that comes about from a start by some history. -/
def Reachable (m : Machine) : Prop :=
  ∃ start, Started start ∧ ∃ acts, start.after acts = m

theorem after_append_singleton (m : Machine) (acts : List Act) (a : Act) :
    m.after (acts ++ [a]) = a.apply (m.after acts) := by
  unfold after
  rw [List.foldl_append, List.foldl_cons, List.foldl_nil]

theorem Reachable.act {m : Machine} (h : m.Reachable) (a : Act) : (a.apply m).Reachable := by
  obtain ⟨start, hs, acts, rfl⟩ := h
  exact ⟨start, hs, acts ++ [a], start.after_append_singleton acts a⟩

theorem Reachable.steps {m : Machine} (h : m.Reachable) (k : Nat) : (m.steps k).machine.Reachable := by
  induction k with
  | zero => exact h
  | succ k ih =>
    unfold Machine.steps
    cases hk : (m.steps k).result with
    | error e =>
      rw [Outcome.andThen_of_error hk]
      exact ih
    | ok t =>
      rw [Outcome.andThen_of_ok hk]
      exact ih.act .step

/-- To run with a budget leads to a reachable machine. -/
theorem Reachable.runFor {m : Machine} (h : m.Reachable) (budget : Nat) :
    (m.runFor budget).machine.Reachable := by
  obtain ⟨k, hrun⟩ := m.exists_runFor_eq_steps budget
  rw [hrun]
  exact h.steps k

/-! ### The ticks that remain -/

theorem cycles_tick {m : Machine} (h : m.cycles ≤ 7) : m.tick.machine.cycles ≤ 7 := by
  by_cases hz : m.cycles = 0
  · obtain ⟨-, herror, hok⟩ := m.cycles_of_fetch
    rw [tick_of_cycles_eq_zero hz]
    cases hr : m.fetch.result with
    | error e =>
      rw [Outcome.andThen_of_error hr]
      dsimp only
      rw [herror e hr]
      exact h
    | ok u =>
      obtain ⟨-, hmax⟩ := hok hr
      rw [Outcome.andThen_of_ok hr]
      unfold spend
      dsimp only
      omega
  · rw [tick_of_cycles_ne_zero hz]
    unfold spend
    dsimp only
    omega

theorem cycles_step {m : Machine} (h : m.cycles ≤ 7) : m.step.machine.cycles = 0 := by
  cases hr : m.step.result with
  | error e => exact (of_step_error hr).1
  | ok n => exact (of_step h hr).2.1

theorem cycles_apply {m : Machine} (h : m.cycles ≤ 7) (a : Act) : (a.apply m).cycles ≤ 7 := by
  cases a with
  | tick => exact cycles_tick h
  | step => exact Nat.le_trans (Nat.le_of_eq (cycles_step h)) (Nat.zero_le 7)
  | reset => exact Nat.zero_le 7
  | setRegisters registers => exact h
  | setNmi asserted => exact h
  | setIrq asserted =>
    unfold Act.apply setIrq updateIrq
    cases m.ownIrq <;> exact h
  | line i act =>
    cases i with
    | nmi => exact h
    | irq =>
      unfold Act.apply updateLine updateIrq
      cases m.ownIrq <;> exact h
  | bus change => exact h

/-- **The ticks that remain** of the instruction under way are at most seven. -/
theorem Reachable.cycles_le {m : Machine} (h : m.Reachable) : m.cycles ≤ 7 := by
  obtain ⟨start, hs, acts, rfl⟩ := h
  induction acts using List.reverseRecOn with
  | nil => cases hs <;> exact Nat.zero_le 7
  | append_singleton acts a ih =>
    rw [after_append_singleton]
    exact cycles_apply ih a

/-! ### Ticks, steps and budgets -/

/-- Ticks, steps and budgets agree on a machine. -/
structure Timing (m : Machine) : Prop where
  cycles_le : m.cycles ≤ 7
  /-- A tick at a boundary spends from what has just been begun, which takes at least two. -/
  two_le_of_fetch : m.fetch.result = .ok () → 2 ≤ m.fetch.machine.cycles
  /-- In the middle of an instruction a step lets the remaining ticks go by and does nothing else. -/
  step_inside : m.cycles ≠ 0 → m.step =
    ⟨.ok m.cycles, { m with cycles := 0, totalCycles := m.totalCycles + m.cycles }, []⟩
  /-- It ends where as many ticks lead, -/
  ticks_inside : m.cycles ≠ 0 →
    m.ticks m.cycles = ⟨.ok (), m.step.machine, m.step.journal⟩
  /-- none of which does more than go by. -/
  ticks_of_le {j : Nat} : j ≤ m.cycles → m.ticks j = ⟨.ok (), { m with
    cycles := m.cycles - j, totalCycles := m.totalCycles + j }, []⟩
  /-- From a boundary a step fails, like a tick, without a tick gone by; or it takes from two to eight
  ticks and ends where as many ticks lead, of which only the first does more than go by. -/
  step_boundary : m.cycles = 0 →
    (∃ e, m.step.result = .error e ∧ m.tick = ⟨.error e, m.step.machine, m.step.journal⟩ ∧
      m.step.machine.cycles = 0 ∧ m.step.machine.totalCycles = m.totalCycles) ∨
    ∃ n, 2 ≤ n ∧ n ≤ 8 ∧ m.step.result = .ok n ∧
      m.ticks n = ⟨.ok (), m.step.machine, m.step.journal⟩ ∧
      ∀ j, 1 ≤ j → j ≤ n → m.ticks j = ⟨.ok (), { m.step.machine with
        cycles := n - j, totalCycles := m.totalCycles + j }, m.step.journal⟩
  /-- To run with a budget is to step as long as the ticks so far are below the budget, if the target
  fits in 64 bits; -/
  runFor_eq_steps {budget : Nat} : m.totalCycles + budget < UInt64.size →
    ∃ k, m.runFor budget = m.steps k ∧
      (∀ j < k, ∃ t < budget, (m.steps j).result = .ok t) ∧
      ∀ r, (m.steps k).result = .ok r → budget ≤ r
  /-- otherwise it does nothing. -/
  runFor_of_le {budget : Nat} : budget < UInt64.size → UInt64.size ≤ m.totalCycles + budget →
    m.runFor budget = ⟨.ok 0, m, []⟩
  runFor_zero : m.runFor 0 = ⟨.ok 0, m, []⟩
  runFor_ok {budget r : Nat} : m.totalCycles + budget < UInt64.size → budget ≠ 0 →
    (m.runFor budget).result = .ok r →
    budget ≤ r ∧ r ≤ budget + 7 ∧ (m.runFor budget).machine.cycles = 0 ∧
      (m.runFor budget).machine.totalCycles = m.totalCycles + r
  /-- A run that fails has the error of the step that failed and keeps what the steps before did. -/
  runFor_error {budget : Nat} {e : IllegalOpcode} : (m.runFor budget).result = .error e →
    ∃ j, ∃ t < budget, (m.steps j).result = .ok t ∧ (m.steps j).machine.step.result = .error e ∧
      m.runFor budget = ⟨.error e, (m.steps j).machine.step.machine,
        (m.steps j).journal ++ (m.steps j).machine.step.journal⟩ ∧
      (m.runFor budget).machine.cycles = 0 ∧
      (m.runFor budget).machine.totalCycles = m.totalCycles + t

/-- **Ticks, steps and budgets** agree on every reachable machine. -/
theorem Reachable.timing {m : Machine} (h : m.Reachable) : m.Timing where
  cycles_le := h.cycles_le
  two_le_of_fetch hf := (m.cycles_of_fetch.2.2 hf).1
  step_inside := step_of_cycles_ne_zero
  ticks_inside hz := by
    rw [Machine.ticks_of_le (Nat.le_refl m.cycles), step_of_cycles_ne_zero hz, Nat.sub_self]
    rfl
  ticks_of_le := Machine.ticks_of_le
  step_boundary hz := by
    rcases ticks_of_step hz with hfail | ⟨n, hmin, hmax, hn, hcycles, htotal, hticks⟩
    · exact Or.inl hfail
    · refine Or.inr ⟨n, hmin, hmax, hn, ?_, hticks⟩
      rw [hticks n (by omega) (Nat.le_refl n), Nat.sub_self, ← hcycles, ← htotal]
  runFor_eq_steps fits := by
    rw [runFor_of_lt fits]
    exact m.exists_runTicks_eq_steps _
  runFor_of_le := Machine.runFor_of_le
  runFor_zero := by
    have hle : m.runTarget 0 ≤ m.totalCycles := Nat.mod_le m.totalCycles UInt64.size
    unfold Machine.runFor
    rw [Nat.sub_eq_zero_of_le hle, runTicks_zero]
  runFor_ok fits hb hr := by
    rw [runFor_of_lt fits] at hr ⊢
    obtain ⟨hmin, hmax, hzero, htotal⟩ := of_runTicks h.cycles_le hr
    exact ⟨hmin, hmax, hzero hb, htotal⟩
  runFor_error {budget e} he := by
    have hle : m.runTarget budget - m.totalCycles ≤ budget :=
      Nat.sub_le_iff_le_add'.mpr (Nat.mod_le _ _)
    obtain ⟨j, t, ht, hj⟩ := of_runTicks_error h.cycles_le he
    exact ⟨j, t, Nat.lt_of_lt_of_le ht hle, hj⟩

/-- On a bus without devices, where every byte reads as zero, the processor carries out a `BRK`: seven
ticks from the boundary, six after the first of them. With a no-operation and an illegal opcode at
zero, a run for eight ticks ends with the error after two. -/
theorem timing_of_isolated :
    let start := (isolated (.empty .new)).1
    let inside := start.tick.machine
    let failing := (isolated ⟨#[.rom ⟨⟨0, 1, by decide⟩, #[0xEA, 0x02], by decide⟩], .new⟩).1
    (start.Timing ∧ start.step.result = .ok 7 ∧ (start.runFor 8).result = .ok 14) ∧
    (inside.Timing ∧ inside.step.result = .ok 6 ∧ inside.step.machine.totalCycles = 7 ∧
      inside.ticks 6 = ⟨.ok (), inside.step.machine, []⟩) ∧
    failing.Timing ∧ (failing.runFor 8).result = .error ⟨1, 0x02⟩ ∧
      (failing.runFor 8).machine.cycles = 0 ∧ (failing.runFor 8).machine.totalCycles = 2 := by
  intro start inside failing
  have hstart : start.Timing := Reachable.timing ⟨_, .isolated (.empty .new), [], rfl⟩
  have hinside : inside.Timing := Reachable.timing ⟨_, .isolated (.empty .new), [.tick], rfl⟩
  have hfailing : failing.Timing := Reachable.timing ⟨_, .isolated _, [], rfl⟩
  have hcycles : inside.cycles = 6 := by decide +kernel
  have hne : inside.cycles ≠ 0 := by
    rw [hcycles]
    decide
  have hstep := hinside.step_inside hne
  have hticks := hinside.ticks_inside hne
  rw [hcycles] at hstep hticks
  have herror : (failing.runFor 8).result = .error ⟨1, 0x02⟩ := by decide +kernel
  obtain ⟨-, -, -, -, -, -, hzero, -⟩ := hfailing.runFor_error herror
  refine ⟨⟨hstart, by decide +kernel, by decide +kernel⟩,
    ⟨hinside, by rw [hstep], by decide +kernel, ?_⟩,
    hfailing, herror, hzero, by decide +kernel⟩
  rw [hticks, hstep]

end Machine

end Nmos6502
