import Nmos6502.Proofs.Bus.LineIndependence
import Nmos6502.Proofs.Machine.Circuit

/-!
# The masked interrupt request

A machine looks at its interrupt request line in one place only: at an instruction boundary where it
enters no non-maskable interrupt and the flag does not mask the request (`Machine.Looks`). Two machines
that are equal but for the requests of some handles on the line (`Machine.SameBut`) therefore stay so,
whatever happens to both of them, until one finds the line raised there and the other one does not
(`Machine.Act.Tells`).

For one act this is `Machine.follows_apply`: the machine on another line (`Machine.withIrq`) does the
same, and the two lines go on by the same history. `Machine.sameBut_after` says it for a whole history.
-/

namespace Nmos6502

namespace Machine

/-! ### The machine on another line -/

/-- The machine with another line in the place of its interrupt request line. -/
def withIrq (m : Machine) (irq : InterruptLine) : Machine :=
  { m with
    ownIrq := m.ownIrq.map fun _ => irq
    bus := ⟨m.bus.devices, if m.ownIrq.isSome then m.bus.irq else irq⟩ }

/-- A machine and the same machine on another line, after the same history of the two lines. -/
def Follows (irq irq' : InterruptLine) (m m' : Machine) : Prop :=
  ∃ acts, m.irq = irq.after acts ∧ m' = m.withIrq (irq'.after acts)

/-- What is done to a machine without regard to its interrupt request line. -/
structure Spares (f : Machine → Machine) : Prop where
  irq_eq (m : Machine) : (f m).irq = m.irq
  withIrq_eq (m : Machine) (irq : InterruptLine) : f (m.withIrq irq) = (f m).withIrq irq

variable {irq irq' : InterruptLine} {m m' : Machine}

theorem irq_withIrq (m : Machine) (irq : InterruptLine) : (m.withIrq irq).irq = irq := by
  unfold Machine.irq withIrq
  cases m.ownIrq <;> rfl

theorem updateIrq_withIrq (m : Machine) (irq : InterruptLine) (f : InterruptLine → InterruptLine) :
    (m.withIrq irq).updateIrq f = (m.updateIrq f).withIrq (f irq) := by
  rcases m with ⟨registers, cycles, totalCycles, nmiAnswered, nmi, _ | own, bus⟩ <;> rfl

theorem Follows.spares (h : Follows irq irq' m m') {f : Machine → Machine} (hf : Spares f) :
    Follows irq irq' (f m) (f m') := by
  obtain ⟨acts, hirq, rfl⟩ := h
  exact ⟨acts, (hf.irq_eq m).trans hirq, hf.withIrq_eq m _⟩

/-- A source acts on both lines. -/
theorem follows_updateIrq (m : Machine) (irq' : InterruptLine) (a : LineAct) :
    Follows m.irq irq' (m.updateIrq a.apply) ((m.withIrq irq').updateIrq a.apply) :=
  ⟨[a], m.irq_updateIrq _, m.updateIrq_withIrq irq' _⟩

/-- The same happens to both buses, without regard to their lines. -/
theorem follows_onBus {f : Bus → Bus} (hf : Bus.Blind f) (m : Machine) (irq' : InterruptLine) :
    Follows m.irq irq' (m.onBus f) ((m.withIrq irq').onBus f) := by
  rcases m with ⟨registers, cycles, totalCycles, nmiAnswered, nmi, _ | own, ⟨devices, line⟩⟩
  · obtain ⟨devices', acts, hbus⟩ := hf devices
    refine ⟨acts, congrArg Bus.irq (hbus line), ?_⟩
    unfold onBus withIrq
    dsimp only [Option.map_none, Option.isSome_none]
    rw [if_neg Bool.false_ne_true, if_neg Bool.false_ne_true, hbus line, hbus irq']
  · exact ⟨[], rfl, rfl⟩

/-- An activity of both processors has the same value and the same journal. -/
theorem follows_perform {α : Type} (activity : Activity α) (m : Machine) (irq' : InterruptLine) :
    ((m.withIrq irq').perform activity).1 = (m.perform activity).1 ∧
      ((m.withIrq irq').perform activity).2.2 = (m.perform activity).2.2 ∧
      Follows m.irq irq' (m.perform activity).2.1 ((m.withIrq irq').perform activity).2.1 := by
  rcases m with ⟨registers, cycles, totalCycles, nmiAnswered, nmi, _ | own, ⟨devices, line⟩⟩
  · obtain ⟨value, devices', acts, journal, hrun⟩ := activity.exists_run_eq devices
    unfold withIrq
    dsimp only [Option.map_none, Option.isSome_none]
    rw [if_neg Bool.false_ne_true, perform_eq, perform_eq]
    dsimp only
    rw [hrun line, hrun irq']
    exact ⟨rfl, rfl, acts, rfl, rfl⟩
  · exact ⟨rfl, rfl, [], rfl, rfl⟩

end Machine

/-! ### Outcomes -/

/-- Two outcomes with the same result and the same journal, for a machine and the same one on another
line. -/
structure Outcome.Follows {α : Type} (irq irq' : InterruptLine) (o o' : Outcome α) : Prop where
  result_eq : o'.result = o.result
  journal_eq : o'.journal = o.journal
  machine : Machine.Follows irq irq' o.machine o'.machine

theorem Outcome.Follows.andThen {α β : Type} {irq irq' : InterruptLine} {o o' : Outcome α}
    (h : o.Follows irq irq' o') {f : α → Machine → Outcome β}
    (hf : ∀ value m m', Machine.Follows irq irq' m m' →
      (f value m).Follows irq irq' (f value m')) :
    (o.andThen f).Follows irq irq' (o'.andThen f) := by
  obtain ⟨hresult, hjournal, hmachine⟩ := h
  unfold Outcome.andThen
  rw [hresult]
  cases o.result with
  | error e => exact ⟨rfl, hjournal, hmachine⟩
  | ok value =>
    obtain ⟨hresult', hjournal', hmachine'⟩ := hf value _ _ hmachine
    exact ⟨hresult', congrArg₂ (· ++ ·) hjournal hjournal', hmachine'⟩

namespace Machine

/-! ### Ticks -/

/-- The processor looks at its interrupt request line: it is at an instruction boundary, enters no
non-maskable interrupt there, and the flag does not mask the request. -/
def Looks (m : Machine) : Prop :=
  m.cycles = 0 ∧ ¬ m.EntersNmi ∧ m.registers.flags.interruptDisable = false

variable {irq irq' : InterruptLine} {m m' : Machine}

/-- Where it does not look at the line, or finds the same there, the processor finds the same interrupt. -/
theorem sample_fst_withIrq (hz : m.cycles = 0)
    (h : m.Looks → irq'.isRaised = m.irq.isRaised) : (m.withIrq irq').sample.1 = m.sample.1 := by
  have hsame : (m.withIrq irq').sample.1 =
      if m.nmi.isRaised = true ∧ m.nmiAnswered = false then some .nmi
      else if irq'.isRaised && !m.registers.flags.interruptDisable then some .irq else none := by
    rw [sample_fst, irq_withIrq]
    rfl
  rw [hsame, sample_fst]
  by_cases hnmi : m.nmi.isRaised = true ∧ m.nmiAnswered = false
  · rw [if_pos hnmi, if_pos hnmi]
  · rw [if_neg hnmi, if_neg hnmi]
    cases hflag : m.registers.flags.interruptDisable with
    | true => rw [Bool.not_true, Bool.and_false, Bool.and_false]
    | false => rw [h ⟨hz, fun he => hnmi (entersNmi_iff.mp he).2, hflag⟩]

theorem spares_sample_snd : Spares fun m => m.sample.2 := by
  constructor
  · intro m
    rw [sample_snd]
    rfl
  · intro m irq
    rw [sample_snd, sample_snd]
    rfl

theorem follows_fetch (hz : m.cycles = 0) (h : m.Looks → irq'.isRaised = m.irq.isRaised) :
    m.fetch.Follows m.irq irq' (m.withIrq irq').fetch := by
  have hfst := sample_fst_withIrq hz h
  have hsnd : (m.withIrq irq').sample.2 = m.sample.2.withIrq irq' :=
    spares_sample_snd.withIrq_eq m irq'
  have hirq : m.sample.2.irq = m.irq := spares_sample_snd.irq_eq m
  obtain ⟨hvalue, hjournal, hmachine⟩ :=
    follows_perform (action m.sample.2.registers m.sample.1) m.sample.2 irq'
  rw [hirq] at hmachine
  have hregisters : (m.sample.2.withIrq irq').registers = m.sample.2.registers := rfl
  unfold fetch
  dsimp only
  rw [hfst, hsnd, hregisters]
  generalize (m.sample.2.withIrq irq').perform _ = ran' at hvalue hjournal hmachine ⊢
  generalize m.sample.2.perform _ = ran at hvalue hjournal hmachine ⊢
  obtain ⟨value, machine, journal⟩ := ran
  obtain ⟨value', machine', journal'⟩ := ran'
  dsimp only at hvalue hjournal hmachine ⊢
  subst hvalue
  cases value' with
  | error e => exact ⟨rfl, hjournal, hmachine⟩
  | ok p =>
    have hspares : Spares fun m => { m with registers := p.1, cycles := p.2 } :=
      ⟨fun _ => rfl, fun _ _ => rfl⟩
    exact ⟨rfl, hjournal, hmachine.spares hspares⟩

/-- A tick, unless the processor looks at the two lines and they differ. -/
theorem follows_tick (h : m.Looks → irq'.isRaised = m.irq.isRaised) :
    m.tick.Follows m.irq irq' (m.withIrq irq').tick := by
  by_cases hz : m.cycles = 0
  · have hz' : (m.withIrq irq').cycles = 0 := hz
    rw [tick_of_cycles_eq_zero hz, tick_of_cycles_eq_zero hz']
    refine (follows_fetch hz h).andThen fun _ n n' hn => ⟨rfl, rfl, ?_⟩
    exact hn.spares ⟨fun _ => rfl, fun _ _ => rfl⟩
  · have hz' : (m.withIrq irq').cycles ≠ 0 := hz
    rw [tick_of_cycles_ne_zero hz, tick_of_cycles_ne_zero hz']
    exact ⟨rfl, rfl, [], rfl, rfl⟩

theorem follows_step (h : m.Looks → irq'.isRaised = m.irq.isRaised) :
    m.step.Follows m.irq irq' (m.withIrq irq').step := by
  rw [step_eq, step_eq]
  refine (follows_tick h).andThen fun _ n n' hn => ⟨?_, rfl, ?_⟩
  · obtain ⟨acts, -, rfl⟩ := hn
    rfl
  · exact hn.spares ⟨fun _ => rfl, fun _ _ => rfl⟩

/-! ### Histories -/

/-- An act that does nothing to the bus, or something that can happen to its devices. -/
def Act.OnDevices : Act → Prop
  | bus change => ∃ a : BusAct, change = fun bus => a.apply bus
  | _ => True

/-- The act tells two machines apart: the processor looks at its interrupt request line, which is raised in
one of them only. -/
def Act.Tells (m m' : Machine) (a : Act) : Prop :=
  (a = tick ∨ a = step) ∧ m.Looks ∧ m'.irq.isRaised ≠ m.irq.isRaised

/-- **The same act** on two lines. -/
theorem follows_apply {a : Act} (ha : a.OnDevices) (h : ¬ a.Tells m (m.withIrq irq')) :
    Follows m.irq irq' (a.apply m) (a.apply (m.withIrq irq')) := by
  have hlooks : a = .tick ∨ a = .step → m.Looks → irq'.isRaised = m.irq.isRaised := by
    intro hact hm
    by_contra hne
    rw [← m.irq_withIrq irq'] at hne
    exact h ⟨hact, hm, hne⟩
  cases a with
  | tick => exact (follows_tick (hlooks (Or.inl rfl))).machine
  | step => exact (follows_step (hlooks (Or.inr rfl))).machine
  | reset =>
    obtain ⟨hpc, -, hmachine⟩ := follows_perform (Activity.readWord resetVector) m irq'
    have hspares : Spares fun after =>
        { after with registers := .reset (m.perform (Activity.readWord resetVector)).1, cycles := 0 } :=
      ⟨fun _ => rfl, fun _ _ => rfl⟩
    unfold Act.apply reset
    dsimp only
    rw [hpc]
    exact hmachine.spares hspares
  | setRegisters registers => exact ⟨[], rfl, rfl⟩
  | setNmi asserted => exact ⟨[], rfl, rfl⟩
  | setIrq asserted => exact follows_updateIrq m irq' (.set InterruptLine.owner asserted)
  | line i act =>
    cases i with
    | nmi => exact ⟨[], rfl, rfl⟩
    | irq => exact follows_updateIrq m irq' act
  | bus change =>
    obtain ⟨act, rfl⟩ := ha
    exact follows_onBus act.blind m irq'

/-! ### Machines that differ in requests -/

/-- Two machines that are equal but for the requests of the given handles on the interrupt request line to
which the processors listen. -/
structure SameBut (handles : List SourceId) (m m' : Machine) : Prop where
  registers_eq : m'.registers = m.registers
  cycles_eq : m'.cycles = m.cycles
  totalCycles_eq : m'.totalCycles = m.totalCycles
  nmiAnswered_eq : m'.nmiAnswered = m.nmiAnswered
  nmi_eq : m'.nmi = m.nmi
  devices_eq : m'.bus.devices = m.bus.devices
  irq : m.irq.SameBut handles m'.irq
  isSome_ownIrq_eq : m'.ownIrq.isSome = m.ownIrq.isSome
  /-- The line of the bus, if the processors do not listen to it. -/
  busIrq_eq : m.ownIrq.isSome = true → m'.bus.irq = m.bus.irq

variable {handles : List SourceId}

theorem sameBut_iff :
    m.SameBut handles m' ↔ m.irq.SameBut handles m'.irq ∧ m' = m.withIrq m'.irq := by
  constructor
  · intro h
    refine ⟨h.irq, ?_⟩
    rcases m with ⟨registers, cycles, totalCycles, nmiAnswered, nmi, own, ⟨devices, line⟩⟩
    rcases m' with ⟨registers', cycles', totalCycles', nmiAnswered', nmi', own', ⟨devices', line'⟩⟩
    obtain ⟨rfl, rfl, rfl, rfl, rfl, rfl, -, hown, hbus⟩ := h
    cases own with
    | none =>
      obtain rfl : own' = none := Option.isNone_iff_eq_none.mp (Option.isSome_eq_false_iff.mp hown)
      rfl
    | some own =>
      obtain ⟨own', rfl⟩ := Option.isSome_iff_exists.mp hown
      obtain rfl : line' = line := hbus rfl
      rfl
  · rintro ⟨hline, hm⟩
    have hsame : m.SameBut handles (m.withIrq m'.irq) := by
      refine ⟨rfl, rfl, rfl, rfl, rfl, rfl, ?_, ?_, ?_⟩
      · rwa [irq_withIrq]
      · unfold withIrq
        cases m.ownIrq <;> rfl
      · intro hown
        exact if_pos hown
    rwa [← hm] at hsame

theorem sameBut_set (m : Machine) (source : SourceId) (asserted : Bool) :
    m.SameBut [source] (m.updateLine .irq fun line => line.set source asserted) := by
  have hm : m.updateLine .irq (fun line => line.set source asserted) =
      m.withIrq (m.irq.set source asserted) := by
    rcases m with ⟨registers, cycles, totalCycles, nmiAnswered, nmi, _ | own, bus⟩ <;> rfl
  rw [hm, sameBut_iff, irq_withIrq]
  exact ⟨m.irq.sameBut_set source asserted, rfl⟩

/-- One act keeps the machines so, unless it tells them apart. -/
theorem SameBut.apply (h : m.SameBut handles m') {a : Act} (ha : a.OnDevices)
    (hsame : ¬ a.Tells m m') : (a.apply m).SameBut handles (a.apply m') := by
  obtain ⟨hline, hm⟩ := sameBut_iff.mp h
  rw [hm] at hsame ⊢
  obtain ⟨acts, hirq, hafter⟩ := follows_apply ha hsame
  have hirq' : (a.apply (m.withIrq m'.irq)).irq = m'.irq.after acts := by
    rw [hafter, irq_withIrq]
  refine sameBut_iff.mpr ⟨?_, ?_⟩
  · rw [hirq, hirq']
    exact hline.after acts
  · rw [hirq', hafter]

/-- **A masked interrupt request is invisible.** Whatever happens to two machines that are equal but for the
requests of some handles, they stay so after every act, up to the first act that tells them apart. -/
theorem sameBut_after (h : m.SameBut handles m') {acts : List Act} (hacts : ∀ a ∈ acts, a.OnDevices)
    {k : Nat} (hsame : ∀ j < k, ∀ a, acts[j]? = some a →
      ¬ a.Tells (m.after (acts.take j)) (m'.after (acts.take j))) :
    (m.after (acts.take k)).SameBut handles (m'.after (acts.take k)) := by
  induction k with
  | zero => exact h
  | succ k ih =>
    have hk := ih fun j hj => hsame j (by omega)
    rw [List.take_add_one]
    cases ha : acts[k]? with
    | none => rwa [Option.toList_none, List.append_nil]
    | some a =>
      rw [Option.toList_some, after_append_singleton, after_append_singleton]
      exact hk.apply (hacts a (List.mem_of_getElem? ha)) (hsame k (by omega) a ha)

/-- A handle is raised for one of two processors that then unmask the request. They do the same until
they look at the line again, and part there. -/
theorem sameBut_after_unmasking :
    let code : AddressRange := ⟨0x0200, 0x0201, by decide⟩
    let bus : Bus := ⟨#[.ram ((Ram.new code).load 0 [0x58, 0xEA])], InterruptLine.new.connect.2⟩
    let m : Machine := { unreset bus .new none with
      registers := ⟨1, 2, 3, 0xFF, 0x0200, { Flags.clear with interruptDisable := true }⟩ }
    let m' := m.updateLine .irq fun line => line.set 1 true
    let acts : List Act := [.bus fun bus => BusAct.apply bus (.read 0x0201), .tick, .tick, .tick]
    (m.after (acts.take 3)).SameBut [1] (m'.after (acts.take 3)) ∧
      Act.tick.Tells (m.after (acts.take 3)) (m'.after (acts.take 3)) := by
  intro code bus m m' acts
  have hacts : ∀ a ∈ acts, a.OnDevices := by
    simp only [acts, List.forall_mem_cons]
    exact ⟨⟨.read 0x0201, rfl⟩, trivial, trivial, trivial, List.forall_mem_nil _⟩
  refine ⟨sameBut_after (m.sameBut_set 1 true) hacts ?_, Or.inl rfl, ⟨?_, ?_, ?_⟩, ?_⟩
  · intro j hj a ha
    obtain rfl | rfl | rfl : j = 0 ∨ j = 1 ∨ j = 2 := by omega
    · obtain rfl := Option.some.inj ha
      rintro ⟨h | h, -⟩ <;> exact nomatch h
    · -- the request is still masked
      rintro ⟨-, ⟨-, -, hflag⟩, -⟩
      exact absurd hflag (by decide +kernel)
    · -- the instruction that unmasks it is under way
      rintro ⟨-, ⟨hz, -, -⟩, -⟩
      exact absurd hz (by decide +kernel)
  · decide +kernel
  · exact mt entersNmi_iff.mp (by decide +kernel)
  · decide +kernel
  · decide +kernel

end Machine

end Nmos6502
