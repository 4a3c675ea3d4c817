import Nmos6502.Proofs.Bus.Reads
import Nmos6502.Proofs.Machine.Circuit
import Nmos6502.Proofs.Processor.Decoding

/-!
# Illegal opcodes

The machine fails exactly when it is to carry out an instruction and the byte at the program counter is
no opcode (`Machine.tick_eq_error_iff`). It stays as it is then, but for a port that it may have
collected from by reading the byte (`Machine.FailsCleanly`), and the failure is for good: whatever
is called to let it go on fails with the same error and changes nothing more
(`Machine.fails_for_good`). A run whose target does not fit in 64 bits changes nothing either, but it
ends well (`Machine.Call.answer`).
-/

namespace Nmos6502

/-- Whether an outcome is an error, and the machine after it. -/
def Outcome.ending {α : Type} (o : Outcome α) : Except IllegalOpcode Unit × Machine :=
  (o.result.map fun _ => (), o.machine)

namespace Machine

variable {m : Machine} {e : IllegalOpcode}

/-! ### When the machine fails -/

/-- Where the byte at the program counter is no opcode, it is read and nothing else happens. -/
theorem tick_of_illegal (h : m.IsAtInstruction)
    (hop : Opcode.decode? (m.bus.peek m.registers.pc) = none) : m.tick =
      ⟨.error ⟨m.registers.pc, m.bus.peek m.registers.pc⟩,
        { m with
          nmiAnswered := m.nmi.isRaised
          bus := m.bus.afterRead m.registers.pc },
        [.read m.registers.pc (m.bus.peek m.registers.pc),
          .event (.illegalOpcode m.registers.pc (m.bus.peek m.registers.pc))]⟩ := by
  have hbegun := h.begun_eq.trans (Registers.run_instruction_of_decode?_eq_none hop)
  rw [tick_of_begun_error h.1 (congrArg Ran.value hbegun), h.sample_snd, hbegun]

/-- A tick that fails is one at which an instruction is to be carried out. -/
theorem isAtInstruction_of_error (h : m.tick.result = .error e) : m.IsAtInstruction := by
  have hz : m.cycles = 0 := by
    by_contra hz
    rw [tick_of_cycles_ne_zero hz] at h
    cases h
  refine ⟨hz, ?_⟩
  cases hs : m.sample.1 with
  | none => rfl
  | some i =>
    have hvalue : m.begun.value = .ok (((m.registers.interrupt i).run m.bus).value, interruptCycles) := by
      unfold begun
      rw [hs]
      exact (run_action_some m.registers i m.bus).1
    rw [tick_of_begun_ok hz hvalue] at h
    cases h

/-- **The machine fails** exactly when it is to carry out an instruction and there is none. -/
theorem tick_eq_error_iff : m.tick.result = .error e ↔ m.IsAtInstruction ∧
    Opcode.decode? (m.bus.peek m.registers.pc) = none ∧
    e = ⟨m.registers.pc, m.bus.peek m.registers.pc⟩ := by
  constructor
  · intro he
    have h := isAtInstruction_of_error he
    cases hop : Opcode.decode? (m.bus.peek m.registers.pc) with
    | none =>
      rw [tick_of_illegal h hop] at he
      cases he
      exact ⟨h, rfl, rfl⟩
    | some op =>
      obtain ⟨⟨r, cost⟩, hvalue⟩ := Registers.exists_run_instruction_of_decode? hop
      rw [← h.begun_eq] at hvalue
      rw [tick_of_begun_ok h.1 hvalue] at he
      cases he
  · rintro ⟨h, hop, rfl⟩
    rw [tick_of_illegal h hop]

/-! ### What a failure leaves behind -/

/-- **The machine fails cleanly**: it stays as it is, but for the port of an interface that the program
counter leads to. -/
structure FailsCleanly (m : Machine) : Prop where
  registers : m.tick.machine.registers = m.registers
  cycles : m.tick.machine.cycles = m.cycles
  totalCycles : m.tick.machine.totalCycles = m.totalCycles
  nmi : m.tick.machine.nmi = m.nmi
  ownIrq : m.tick.machine.ownIrq = m.ownIrq
  /-- All devices but interfaces stay as they are, -/
  plain {i : Nat} {d : Device} : m.bus.device? i = some d → d.pia? = none →
    m.tick.machine.bus.device? i = some d
  /-- and of these only data that the bus reads at the program counter is collected, -/
  device (i : Nat) : m.tick.machine.bus.device? i = m.bus.device? i ∨
    ∃ p side, m.bus.IsFirst m.registers.pc i (.pia p) ∧
      Pia.portAt? (p.range.offset m.registers.pc) = some side ∧
      m.tick.machine.bus.device? i = some (.pia (p.collected side))
  /-- with what that makes of the request of the interface. -/
  request (source : SourceId) :
    m.tick.machine.bus.irq.request? source = m.bus.irq.request? source ∨
      ∃ i p side, m.bus.IsFirst m.registers.pc i (.pia p) ∧
        Pia.portAt? (p.range.offset m.registers.pc) = some side ∧ p.source = source ∧
        m.tick.machine.bus.irq.request? source = some (p.collected side).requestsInterrupt

theorem failsCleanly_of_error (h : m.tick.result = .error e) : m.FailsCleanly := by
  obtain ⟨hat, hop, rfl⟩ := tick_eq_error_iff.mp h
  have htick := tick_of_illegal hat hop
  have hbus : m.tick.machine.bus = m.bus.afterRead m.registers.pc := by rw [htick]
  have hdevice : ∀ i, m.tick.machine.bus.device? i = m.bus.device? i ∨
      ∃ p side, m.bus.IsFirst m.registers.pc i (.pia p) ∧
        Pia.portAt? (p.range.offset m.registers.pc) = some side ∧
        m.tick.machine.bus.device? i = some (.pia (p.collected side)) := by
    intro j
    rw [hbus]
    rcases m.bus.afterRead_eq m.registers.pc with hsame | ⟨i, p, side, hfirst, hport, -, hc⟩
    · exact Or.inl (by rw [hsame])
    · rw [hc, Bus.device?_update]
      split
      · next hij =>
        subst hij
        refine Or.inr ⟨p, side, hfirst, hport, ?_⟩
        rw [hfirst.1]
        rfl
      · exact Or.inl rfl
  refine ⟨by rw [htick], by rw [htick], by rw [htick], by rw [htick], by rw [htick], ?_, hdevice, ?_⟩
  · intro i d hd hp
    rcases hdevice i with hsame | ⟨p, side, hfirst, -⟩
    · exact hsame.trans hd
    · rw [Option.some.inj (hd.symm.trans hfirst.1)] at hp
      cases hp
  · intro source
    rw [hbus]
    rcases m.bus.afterRead_eq m.registers.pc with hsame | ⟨i, p, side, hfirst, hport, -, hc⟩
    · exact Or.inl (by rw [hsame])
    · have hrequest : (m.bus.afterRead m.registers.pc).irq.request? source =
          if source = p.source ∧ m.bus.irq.isConnected p.source = true then
            some (p.collected side).requestsInterrupt
          else m.bus.irq.request? source := by
        rw [hc, Bus.update_eq hfirst.1, ← p.source_collected side]
        exact InterruptLine.request?_set _ _ _ _
      split at hrequest
      · next hs => exact Or.inr ⟨i, p, side, hfirst, hport, hs.1.symm, hrequest⟩
      · exact Or.inl hrequest

/-! ### For good -/

/-- A call that lets the machine go on. -/
inductive Call
  | tick
  | step
  | run (budget : UInt64) (positive : 0 < budget)

/-- What a call leads to, and the machine after it. -/
def Call.apply (m : Machine) : Call → Except IllegalOpcode Unit × Machine
  | tick => m.tick.ending
  | step => m.step.ending
  | run budget _ => (m.runFor budget.toNat).ending

/-- The call is no run whose target does not fit in 64 bits. -/
def Call.Fits (m : Machine) : Call → Prop
  | tick | step => True
  | run budget _ => m.totalCycles + budget.toNat < UInt64.size

instance (m : Machine) : DecidablePred (Call.Fits m)
  | .tick | .step => isTrue trivial
  | .run budget _ => inferInstanceAs (Decidable (m.totalCycles + budget.toNat < UInt64.size))

/-- What a machine that has failed answers to a call: the same error again, unless the target does not
fit. -/
def Call.answer (m : Machine) (e : IllegalOpcode) (call : Call) : Except IllegalOpcode Unit :=
  if call.Fits m then .error e else .ok ()

/-- What some calls lead to, one after the other, and the machine after them. -/
def calls (m : Machine) : List Call → List (Except IllegalOpcode Unit) × Machine
  | [] => ([], m)
  | call :: rest =>
    let (result, after) := call.apply m
    let (results, last) := after.calls rest
    (result :: results, last)

/-- A machine that a failing tick does not change is not changed by any call either. -/
theorem apply_of_stuck (h : m.tick.result = .error e) (hm : m.tick.machine = m) (call : Call) :
    call.apply m = (call.answer m e, m) := by
  have htick : m.tick.ending = (.error e, m) := by
    unfold Outcome.ending
    rw [h, hm]
    rfl
  have hstep : m.step = ⟨.error e, m, m.tick.journal⟩ := by
    rw [step_eq, Outcome.andThen_of_error h, hm]
  cases call with
  | tick => exact htick
  | step =>
    change m.step.ending = _
    rw [hstep]
    rfl
  | run budget positive =>
    change (m.runFor budget.toNat).ending = (if (Call.run budget positive).Fits m then _ else _, m)
    by_cases hfits : (Call.run budget positive).Fits m
    · have hpos : budget.toNat ≠ 0 := Nat.pos_iff_ne_zero.mp (UInt64.lt_iff_toNat_lt.mp positive)
      rw [if_pos hfits, runFor_of_lt hfits, runTicks_of_ne_zero m hpos, hstep]
      rfl
    · rw [if_neg hfits, runFor_of_le budget.toNat_lt (Nat.le_of_not_lt hfits)]
      rfl

theorem calls_of_stuck (h : m.tick.result = .error e) (hm : m.tick.machine = m)
    (calls : List Call) : m.calls calls = (calls.map (Call.answer m e), m) := by
  induction calls with
  | nil => rfl
  | cons call rest ih =>
    unfold Machine.calls
    rw [apply_of_stuck h hm]
    dsimp only
    rw [ih, List.map_cons]

/-- After a failure the machine finds no interrupt and the same byte again. -/
theorem tick_of_failed {loose : List Pia} {handles : List SourceId} {early : SourceId → Prop}
    (hheld : m.bus.Held loose handles early) (hlt : m.irq.assertions < UInt32.size)
    (h : m.tick.result = .error e) :
    m.tick.machine.tick.result = .error e ∧ m.tick.machine.tick.machine = m.tick.machine := by
  obtain ⟨hat, hop, rfl⟩ := tick_eq_error_iff.mp h
  obtain ⟨hz, -, hirq⟩ := isAtInstruction_iff.mp hat
  have hread := m.bus.read_afterRead m.registers.pc
  have hpeek : (m.bus.afterRead m.registers.pc).peek m.registers.pc =
      m.bus.peek m.registers.pc := congrArg Prod.fst hread
  have hafter : (m.bus.afterRead m.registers.pc).afterRead m.registers.pc =
      m.bus.afterRead m.registers.pc := congrArg Prod.snd hread
  have hline : (m.ownIrq.getD (m.bus.afterRead m.registers.pc).irq).isRaised = true →
      m.irq.isRaised = true := by
    unfold irq at hlt ⊢
    cases hown : m.ownIrq with
    | none =>
      rw [hown] at hlt
      exact hheld.isRaised_of_afterRead hlt
    | some line => exact id
  have hat' : IsAtInstruction { m with
      nmiAnswered := m.nmi.isRaised
      bus := m.bus.afterRead m.registers.pc } :=
    isAtInstruction_iff.mpr ⟨hz, id, fun hr => hirq (hline hr)⟩
  rw [tick_of_illegal hat hop]
  dsimp only
  rw [tick_of_illegal hat' (by rw [hpeek]; exact hop)]
  dsimp only
  rw [hpeek, hafter]
  exact ⟨rfl, rfl⟩

/-- **An illegal opcode** fails cleanly and for good, whatever has become of the bus: the tick fails
exactly where an instruction is to be carried out and there is none, it tells the byte and its
address, and no later call changes anything; all of them fail in the same way, but for the runs whose
target does not fit in 64 bits. For the last part the interrupt line must be able to count the sources
that assert it. -/
theorem fails_for_good {nmi : InterruptLine} {acts : List Circuit.Act}
    (hbus : m.bus = ((Circuit.start nmi).after acts).machine.bus) :
    (∀ e, m.tick.result = .error e ↔ m.IsAtInstruction ∧
      Opcode.decode? (m.bus.peek m.registers.pc) = none ∧
      e = ⟨m.registers.pc, m.bus.peek m.registers.pc⟩) ∧
    ∀ e, m.tick.result = .error e → m.FailsCleanly ∧
      (m.irq.assertions < UInt32.size → ∀ calls,
        m.tick.machine.calls calls = (calls.map (Call.answer m.tick.machine e), m.tick.machine) ∧
        ((∀ call ∈ calls, call.Fits m.tick.machine) → m.tick.machine.calls calls =
          (List.replicate calls.length (.error e), m.tick.machine))) := by
  have hheld := (Circuit.held_after nmi acts).bus
  rw [← hbus] at hheld
  refine ⟨fun e => tick_eq_error_iff, fun e h => ⟨failsCleanly_of_error h, ?_⟩⟩
  intro hlt calls
  obtain ⟨herror, hstuck⟩ := tick_of_failed hheld hlt h
  have hcalls := calls_of_stuck herror hstuck calls
  refine ⟨hcalls, fun hfits => ?_⟩
  have hanswers : calls.map (Call.answer m.tick.machine e) = calls.map fun _ => .error e :=
    List.map_congr_left fun call hcall => if_pos (hfits call hcall)
  rw [hcalls, hanswers, List.map_const']

/-- The program counter leads to a port that holds an illegal opcode and asks for an interrupt, which
is masked. The failure collects from the port and withdraws the request; after that nothing changes. -/
theorem fails_for_good_at_a_port :
    let circuit := (Circuit.start .new).after
      [.handle, .build 0xD010 1, .mount 0, .bus (.write 0xD012 0x04), .bus (.write 0xD010 0x02)]
    let m : Machine := { circuit.machine with
      registers := ⟨0, 0, 0, 0xFF, 0xD010, { Flags.clear with interruptDisable := true }⟩ }
    m.irq.isRaised = true ∧ m.tick.machine.irq.isRaised = false ∧
      m.tick.machine.calls [.step, .run 10 (by decide), .tick] =
        ([.error ⟨0xD010, 0x02⟩, .error ⟨0xD010, 0x02⟩, .error ⟨0xD010, 0x02⟩], m.tick.machine) ∧
      m.tick.machine.registers = m.registers := by
  intro circuit m
  obtain ⟨herror, hfails⟩ := @fails_for_good m .new _ rfl
  obtain ⟨hclean, hcalls⟩ := hfails ⟨0xD010, 0x02⟩
    ((herror _).mpr ⟨⟨by decide +kernel, by decide +kernel⟩, by decide +kernel, by decide +kernel⟩)
  refine ⟨by decide +kernel, by decide +kernel, ?_, hclean.registers⟩
  exact (hcalls (by decide +kernel) _).2 (by decide +kernel)

/-- A no-operation and an illegal opcode: once two ticks have gone by, the largest budget takes a run
past what 64 bits hold, and the failed machine lets it end well. -/
theorem exists_run_after_failure : ∃ (m : Machine) (e : IllegalOpcode) (budget : UInt64)
    (positive : 0 < budget), m.Reachable ∧
      m.tick.result = .error e ∧ m.tick.machine.tick.result = .error e ∧
      (Call.run budget positive).apply m.tick.machine = (.ok (), m.tick.machine) := by
  let start := (isolated ⟨#[.rom ⟨⟨0, 1, by decide⟩, #[0xEA, 0x02], by decide⟩], .new⟩).1
  have hreachable : start.Reachable := ⟨_, .isolated _, [], rfl⟩
  refine ⟨start.step.machine, ⟨1, 0x02⟩, 0xFFFFFFFFFFFFFFFF, by decide, hreachable.act .step,
    by decide +kernel, by decide +kernel, ?_⟩
  have htotal : start.step.machine.tick.machine.totalCycles = 2 := by decide +kernel
  have hrun := runFor_of_le (m := start.step.machine.tick.machine)
    (UInt64.toNat_lt 0xFFFFFFFFFFFFFFFF) (by rw [htotal]; decide)
  exact congrArg Outcome.ending hrun

end Machine

end Nmos6502
