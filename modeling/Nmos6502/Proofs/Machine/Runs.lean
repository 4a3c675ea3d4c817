import Nmos6502.Machine
import Nmos6502.Proofs.Processor.Cost

/-!
# Ticks, steps and budgets

A machine can be driven tick by tick (`Machine.ticks`), step by step (`Machine.steps`) or for a number
of ticks (`Machine.runTicks`). What is begun at an instruction boundary costs from two to eight ticks
(`Machine.cycles_of_fetch`), and all but the first of them only pass (`Machine.ticks_of_step`).
Running for a number of ticks is stepping as long as the ticks so far are below it
(`Machine.exists_runTicks_eq_steps`). A run with a budget (`Machine.runFor`) is one for so many ticks,
or for none where its target does not fit (`Machine.runFor_of_lt`, `Machine.runFor_of_le`).
-/

namespace Nmos6502

namespace Outcome

variable {α β : Type}

/-- What comes after an operation, unless that met an illegal opcode. -/
def andThen (o : Outcome α) (f : α → Machine → Outcome β) : Outcome β :=
  match o.result with
  | .error e => ⟨.error e, o.machine, o.journal⟩
  | .ok value =>
    { f value o.machine with journal := o.journal ++ (f value o.machine).journal }

/-- A result counted on from earlier ticks. -/
def add (n : Nat) (o : Outcome Nat) : Outcome Nat :=
  { o with result := o.result.map fun k => n + k }

theorem andThen_ok (o : Outcome α) : (o.andThen fun value after => ⟨.ok value, after, []⟩) = o := by
  rcases o with ⟨result, m, journal⟩
  cases result with
  | error e => rfl
  | ok value => simp only [andThen, List.append_nil]

theorem andThen_assoc {γ : Type} (o : Outcome α) (f : α → Machine → Outcome β)
    (g : β → Machine → Outcome γ) :
    (o.andThen f).andThen g = o.andThen fun value after => (f value after).andThen g := by
  rcases o with ⟨result, m, journal⟩
  cases result with
  | error e => rfl
  | ok value =>
    unfold andThen
    dsimp only
    cases (f value m).result with
    | error e => rfl
    | ok value' => simp only [List.append_assoc]

theorem andThen_of_ok {o : Outcome α} {value : α} (h : o.result = .ok value)
    (f : α → Machine → Outcome β) : o.andThen f =
      { f value o.machine with journal := o.journal ++ (f value o.machine).journal } := by
  unfold andThen
  rw [h]

theorem andThen_of_error {o : Outcome α} {e : IllegalOpcode} (h : o.result = .error e)
    (f : α → Machine → Outcome β) : o.andThen f = ⟨.error e, o.machine, o.journal⟩ := by
  unfold andThen
  rw [h]

theorem add_zero (o : Outcome Nat) : o.add 0 = o := by
  rcases o with ⟨result, m, journal⟩
  cases result with
  | error e => rfl
  | ok t => simp [add, Except.map]

theorem add_add (o : Outcome Nat) (t n : Nat) : (o.add t).add n = o.add (n + t) := by
  rcases o with ⟨result, m, journal⟩
  cases result with
  | error e => rfl
  | ok k => simp [add, Except.map, Nat.add_assoc]

theorem result_add {o : Outcome Nat} {n r : Nat} (h : (o.add n).result = .ok r) :
    ∃ t, o.result = .ok t ∧ r = n + t := by
  unfold add at h
  dsimp only at h
  cases ho : o.result with
  | error e =>
    rw [ho] at h
    cases h
  | ok t =>
    rw [ho] at h
    cases h
    exact ⟨t, rfl, rfl⟩

end Outcome

namespace Machine

/-- A number of ticks, up to the first one that meets an illegal opcode. -/
def ticks (m : Machine) : Nat → Outcome Unit
  | 0 => ⟨.ok (), m, []⟩
  | n + 1 => (m.ticks n).andThen fun _ after => after.tick

/-- A number of steps, up to the first one that meets an illegal opcode. The result is how many ticks
they took together. -/
def steps (m : Machine) : Nat → Outcome Nat
  | 0 => ⟨.ok 0, m, []⟩
  | k + 1 => (m.steps k).andThen fun t after => after.step.add t

/-! ### What one tick does -/

theorem perform_eq {α : Type} (m : Machine) (activity : Activity α) : m.perform activity =
    ((activity.run m.bus).value, { m with bus := (activity.run m.bus).bus },
      (activity.run m.bus).journal) := rfl

theorem sample_eq (m : Machine) : ∃ i answered line,
    m.sample = (i, { m with nmiAnswered := answered, nmi := line }) := by
  unfold sample
  dsimp only
  split
  · exact ⟨_, _, _, rfl⟩
  · exact ⟨_, _, m.nmi, rfl⟩

theorem yields_action (r : Registers) (i : Option Interrupt) : (action r i).Yields fun result =>
    ∀ r' cost, result = .ok (r', cost) → 2 ≤ cost ∧ cost ≤ 8 := by
  cases i with
  | some i =>
    refine Activity.yields_bind _ fun r => ?_
    intro r' cost h
    cases h
    decide
  | none =>
    refine r.yields_instruction.imp fun result hr r' cost he => ?_
    obtain ⟨hmin, hmax⟩ := hr r' cost he
    omega

/-- Whatever is begun at an instruction boundary costs from two to eight ticks. An illegal opcode
leaves the ticks alone. -/
theorem cycles_of_fetch (m : Machine) : m.fetch.machine.totalCycles = m.totalCycles ∧
    (∀ e, m.fetch.result = .error e → m.fetch.machine.cycles = m.cycles) ∧
    (m.fetch.result = .ok () → 2 ≤ m.fetch.machine.cycles ∧ m.fetch.machine.cycles ≤ 8) := by
  obtain ⟨i, answered, line, hs⟩ := m.sample_eq
  unfold fetch
  simp only [hs, perform_eq]
  have hcost := (yields_action m.registers i).value m.bus
  generalize (action m.registers i).run m.bus = ran at hcost
  rcases ran with ⟨value, bus, journal⟩
  cases value with
  | error e =>
    refine ⟨rfl, fun _ _ => rfl, fun h => ?_⟩
    cases h
  | ok p =>
    obtain ⟨r, cost⟩ := p
    refine ⟨rfl, fun e h => ?_, fun _ => hcost r cost rfl⟩
    cases h

/-- A tick at an instruction boundary. -/
theorem tick_of_cycles_eq_zero {m : Machine} (h : m.cycles = 0) :
    m.tick = m.fetch.andThen fun _ after => ⟨.ok (), after.spend, []⟩ := by
  unfold tick Outcome.andThen
  rw [if_pos h]
  dsimp only
  cases m.fetch.result with
  | error e => rfl
  | ok u => simp only [List.append_nil]

theorem step_eq (m : Machine) : m.step =
    m.tick.andThen fun _ after => ⟨.ok (after.cycles + 1), after.finish, []⟩ := by
  unfold step Outcome.andThen
  dsimp only
  cases m.tick.result with
  | error e => rfl
  | ok u => simp only [List.append_nil]

/-! ### Steps as ticks -/

/-- Ticks in the middle of an instruction only pass. -/
theorem ticks_of_le {m : Machine} {n : Nat} (h : n ≤ m.cycles) : m.ticks n =
    ⟨.ok (), { m with cycles := m.cycles - n, totalCycles := m.totalCycles + n }, []⟩ := by
  induction n with
  | zero => rfl
  | succ n ih =>
    have hne : m.cycles - n ≠ 0 := by omega
    unfold ticks
    rw [ih (by omega)]
    unfold Outcome.andThen
    dsimp only
    rw [tick_of_cycles_ne_zero hne]
    unfold spend
    dsimp only
    rw [Nat.sub_sub, Nat.add_assoc]
    rfl

theorem ticks_succ (m : Machine) (n : Nat) :
    m.ticks (n + 1) = m.tick.andThen fun _ after => after.ticks n := by
  induction n with
  | zero => exact m.tick.andThen_ok.symm
  | succ n ih =>
    have hlast : m.ticks (n + 2) = (m.ticks (n + 1)).andThen fun _ after => after.tick := rfl
    rw [hlast, ih, Outcome.andThen_assoc]
    rfl

/-- **A step from an instruction boundary** fails without a tick, or takes from two to eight ticks, of
which all but the first only pass. -/
theorem ticks_of_step {m : Machine} (h : m.cycles = 0) :
    (∃ e, m.step.result = .error e ∧ m.tick = ⟨.error e, m.step.machine, m.step.journal⟩ ∧
      m.step.machine.cycles = 0 ∧ m.step.machine.totalCycles = m.totalCycles) ∨
    ∃ n, 2 ≤ n ∧ n ≤ 8 ∧ m.step.result = .ok n ∧
      m.step.machine.cycles = 0 ∧ m.step.machine.totalCycles = m.totalCycles + n ∧
      ∀ j, 1 ≤ j → j ≤ n → m.ticks j = ⟨.ok (), { m.step.machine with
        cycles := n - j, totalCycles := m.totalCycles + j }, m.step.journal⟩ := by
  obtain ⟨htotal, herror, hok⟩ := m.cycles_of_fetch
  have htick := tick_of_cycles_eq_zero h
  have hstep := m.step_eq
  generalize m.fetch = o at htotal herror hok htick
  rcases o with ⟨result, after, journal⟩
  cases result with
  | error e =>
    refine Or.inl ⟨e, ?_⟩
    have hcycles : after.cycles = 0 := (herror e rfl).trans h
    rw [hstep, htick]
    exact ⟨rfl, rfl, hcycles, htotal⟩
  | ok u =>
    obtain ⟨hmin, hmax⟩ := hok rfl
    dsimp only at hmin hmax htotal
    have hfirst : m.tick = ⟨.ok (), after.spend, journal⟩ := by
      rw [htick]
      unfold Outcome.andThen
      simp only [List.append_nil]
    have hresult : m.step = ⟨.ok after.cycles, after.finish, journal⟩ := by
      have hcount : after.spend.cycles + 1 = after.cycles := by
        unfold spend
        dsimp only
        omega
      rw [hstep, hfirst]
      unfold Outcome.andThen
      simp only [List.append_nil, hcount, finish_spend (show after.cycles ≠ 0 by omega)]
    refine Or.inr ⟨after.cycles, hmin, hmax, ?_⟩
    rw [hresult]
    refine ⟨rfl, rfl, ?_, fun j hj hle => ?_⟩
    · unfold finish
      dsimp only
      rw [htotal]
    · obtain ⟨i, rfl⟩ : ∃ i, j = i + 1 := ⟨j - 1, by omega⟩
      have hi : i ≤ after.spend.cycles := by
        unfold spend
        dsimp only
        omega
      rw [ticks_succ, hfirst]
      unfold Outcome.andThen
      dsimp only
      rw [ticks_of_le hi]
      unfold spend finish
      dsimp only
      rw [htotal, List.append_nil, Nat.sub_sub, Nat.add_assoc, Nat.add_comm 1 i]

/-- A step ends at an instruction boundary, and its result is the ticks that went by. -/
theorem of_step {m : Machine} (hc : m.cycles ≤ 7) {n : Nat} (h : m.step.result = .ok n) :
    n ≤ 8 ∧ m.step.machine.cycles = 0 ∧ m.step.machine.totalCycles = m.totalCycles + n := by
  by_cases hz : m.cycles = 0
  · rcases ticks_of_step hz with ⟨e, he, -⟩ | ⟨n', -, hmax, hn, hcycles, htotal, -⟩
    · rw [he] at h
      cases h
    · rw [hn] at h
      cases h
      exact ⟨hmax, hcycles, htotal⟩
  · rw [step_of_cycles_ne_zero hz] at h ⊢
    cases h
    exact ⟨by omega, rfl, rfl⟩

/-- A step that fails is one from an instruction boundary, and it takes no tick. -/
theorem of_step_error {m : Machine} {e : IllegalOpcode} (h : m.step.result = .error e) :
    m.step.machine.cycles = 0 ∧ m.step.machine.totalCycles = m.totalCycles := by
  by_cases hz : m.cycles = 0
  · rcases ticks_of_step hz with ⟨e', -, -, hcycles, htotal⟩ | ⟨n, -, -, hn, -⟩
    · exact ⟨hcycles, htotal⟩
    · rw [hn] at h
      cases h
  · rw [step_of_cycles_ne_zero hz] at h
    cases h

/-! ### Budgets as steps -/

theorem steps_succ (m : Machine) (k : Nat) :
    m.steps (k + 1) = m.step.andThen fun n after => (after.steps k).add n := by
  induction k with
  | zero =>
    have hone : m.steps 1 = m.step.add 0 := rfl
    rw [hone, Outcome.add_zero]
    exact m.step.andThen_ok.symm
  | succ k ih =>
    have hlast : m.steps (k + 2) = (m.steps (k + 1)).andThen fun t after => after.step.add t := rfl
    have hshift : ∀ (o : Outcome Nat) (n : Nat),
        ((o.add n).andThen fun t after => after.step.add t) =
          (o.andThen fun t after => after.step.add t).add n := by
      intro o n
      rcases o with ⟨result, after, journal⟩
      cases result with
      | error e => rfl
      | ok t =>
        exact congrArg (fun o : Outcome Nat => { o with journal := journal ++ o.journal })
          (after.step.add_add t n).symm
    rw [hlast, ih, Outcome.andThen_assoc]
    simp only [hshift]
    rfl

theorem runTicks_zero (m : Machine) : m.runTicks 0 = ⟨.ok 0, m, []⟩ := by
  unfold runTicks
  rfl

theorem runTicks_of_ne_zero (m : Machine) {budget : Nat} (h : budget ≠ 0) : m.runTicks budget =
    m.step.andThen fun n after => (after.runTicks (budget - n)).add n := by
  conv => lhs; unfold runTicks
  rw [if_neg h]
  split
  · next hs =>
    conv => rhs; rw [hs]
    rfl
  · next hs =>
    conv => rhs; rw [hs]
    rfl

/-- **Running with a budget** is stepping as long as the ticks so far are below the budget. -/
theorem exists_runTicks_eq_steps (m : Machine) (budget : Nat) : ∃ k, m.runTicks budget = m.steps k ∧
    (∀ j < k, ∃ t < budget, (m.steps j).result = .ok t) ∧
    ∀ r, (m.steps k).result = .ok r → budget ≤ r := by
  induction budget using Nat.strongRecOn generalizing m with
  | ind budget ih =>
    by_cases hb : budget = 0
    · subst hb
      exact ⟨0, m.runTicks_zero, fun j hj => absurd hj (Nat.not_lt_zero j), fun _ _ => Nat.zero_le _⟩
    · rw [runTicks_of_ne_zero m hb]
      cases hs : m.step.result with
      | error e =>
        have hone : m.steps 1 = ⟨.error e, m.step.machine, m.step.journal⟩ := by
          rw [steps_succ, Outcome.andThen_of_error hs]
        refine ⟨1, ?_, fun j hj => ?_, fun r hr => ?_⟩
        · rw [hone, Outcome.andThen_of_error hs]
        · obtain rfl : j = 0 := by omega
          exact ⟨0, by omega, rfl⟩
        · rw [hone] at hr
          cases hr
      | ok n =>
        have hn := pos_of_step hs
        obtain ⟨k, hrun, hbelow, hreach⟩ := ih (budget - n) (by omega) m.step.machine
        have hsteps : ∀ j, (m.steps (j + 1)).result =
            (m.step.machine.steps j).result.map fun t => n + t := fun j => by
          rw [steps_succ, Outcome.andThen_of_ok hs]
          rfl
        refine ⟨k + 1, ?_, fun j hj => ?_, fun r hr => ?_⟩
        · rw [steps_succ, Outcome.andThen_of_ok hs, Outcome.andThen_of_ok hs, hrun]
        · cases j with
          | zero => exact ⟨0, by omega, rfl⟩
          | succ i =>
            obtain ⟨t, ht, hi⟩ := hbelow i (by omega)
            refine ⟨n + t, by omega, ?_⟩
            rw [hsteps, hi]
            rfl
        · rw [hsteps] at hr
          obtain ⟨t, ht, rfl⟩ := Outcome.result_add (o := m.step.machine.steps k) hr
          have := hreach t ht
          omega

/-- Whatever the budget, to run with it is to step a number of times. -/
theorem exists_runFor_eq_steps (m : Machine) (budget : Nat) : ∃ k, m.runFor budget = m.steps k := by
  obtain ⟨k, hrun, -⟩ := m.exists_runTicks_eq_steps (m.runTarget budget - m.totalCycles)
  exact ⟨k, hrun⟩

/-- Completed steps count the ticks that went by, and end at an instruction boundary. -/
theorem of_steps {m : Machine} (hc : m.cycles ≤ 7) {k t : Nat} (h : (m.steps k).result = .ok t) :
    (m.steps k).machine.cycles ≤ 7 ∧ (k ≠ 0 → (m.steps k).machine.cycles = 0) ∧
      (m.steps k).machine.totalCycles = m.totalCycles + t := by
  induction k generalizing t with
  | zero =>
    cases h
    exact ⟨hc, fun h => absurd rfl h, rfl⟩
  | succ k ih =>
    cases hk : (m.steps k).result with
    | error e =>
      unfold steps at h
      rw [Outcome.andThen_of_error hk] at h
      cases h
    | ok t' =>
      obtain ⟨hc', -, htotal⟩ := ih hk
      unfold steps at h ⊢
      rw [Outcome.andThen_of_ok hk] at h ⊢
      obtain ⟨n, hn, rfl⟩ := Outcome.result_add h
      obtain ⟨-, hzero, hstep⟩ := of_step hc' hn
      refine ⟨?_, fun _ => hzero, ?_⟩
      · exact Nat.le_trans (Nat.le_of_eq hzero) (Nat.zero_le 7)
      · exact hstep.trans (by rw [htotal, Nat.add_assoc])

/-- A run that ends well goes on for at least its budget, and by less than one more step. -/
theorem of_runTicks {m : Machine} (hc : m.cycles ≤ 7) {budget r : Nat}
    (h : (m.runTicks budget).result = .ok r) : budget ≤ r ∧ r ≤ budget + 7 ∧
      (budget ≠ 0 → (m.runTicks budget).machine.cycles = 0) ∧
      (m.runTicks budget).machine.totalCycles = m.totalCycles + r := by
  obtain ⟨k, hrun, hbelow, hreach⟩ := m.exists_runTicks_eq_steps budget
  rw [hrun] at h ⊢
  have hr := hreach r h
  obtain ⟨-, hzero, htotal⟩ := of_steps hc h
  cases k with
  | zero =>
    cases h
    exact ⟨hr, by omega, fun hb => absurd (Nat.le_zero.mp hr) hb, htotal⟩
  | succ j =>
    obtain ⟨t, ht, hj⟩ := hbelow j (Nat.lt_succ_self j)
    obtain ⟨hc', -, -⟩ := of_steps hc hj
    have hlast : m.steps (j + 1) = (m.steps j).andThen fun t after => after.step.add t := rfl
    rw [hlast, Outcome.andThen_of_ok hj] at h
    obtain ⟨n, hn, rfl⟩ := Outcome.result_add h
    obtain ⟨hmax, -, -⟩ := of_step hc' hn
    exact ⟨hr, by omega, fun _ => hzero (Nat.succ_ne_zero j), htotal⟩

/-- A run that fails does so in a step from an instruction boundary, after steps whose ticks are below
the budget, and keeps what these steps did. -/
theorem of_runTicks_error {m : Machine} (hc : m.cycles ≤ 7) {budget : Nat} {e : IllegalOpcode}
    (h : (m.runTicks budget).result = .error e) : ∃ j, ∃ t < budget,
      (m.steps j).result = .ok t ∧ (m.steps j).machine.step.result = .error e ∧
      m.runTicks budget = ⟨.error e, (m.steps j).machine.step.machine,
        (m.steps j).journal ++ (m.steps j).machine.step.journal⟩ ∧
      (m.runTicks budget).machine.cycles = 0 ∧
      (m.runTicks budget).machine.totalCycles = m.totalCycles + t := by
  obtain ⟨k, hrun, hbelow, -⟩ := m.exists_runTicks_eq_steps budget
  rw [hrun] at h ⊢
  cases k with
  | zero => cases h
  | succ j =>
    obtain ⟨t, ht, hj⟩ := hbelow j (Nat.lt_succ_self j)
    obtain ⟨-, -, htotal⟩ := of_steps hc hj
    have hlast : m.steps (j + 1) = (m.steps j).andThen fun t after => after.step.add t := rfl
    rw [hlast, Outcome.andThen_of_ok hj] at h ⊢
    have hs : (m.steps j).machine.step.result = .error e := by
      cases hs : (m.steps j).machine.step.result with
      | ok n =>
        simp [Outcome.add, hs, Except.map] at h
      | error e' =>
        simp only [Outcome.add, hs, Except.map, Except.error.injEq] at h
        rw [h]
    obtain ⟨hzero, hsame⟩ := of_step_error hs
    refine ⟨j, t, ht, hj, hs, ?_, hzero, hsame.trans htotal⟩
    simp only [Outcome.add, hs, Except.map]

end Machine

end Nmos6502
