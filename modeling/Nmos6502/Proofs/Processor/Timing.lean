import Nmos6502.Proofs.Processor.Approach

/-!
# Timing

What an instruction costs: the cycles in the table, one cycle for an index that carries into the
high byte of the address, if the instruction is one that waits for that (`Registers.carryCycles`),
and one or two for a branch that is taken (`Registers.takenCycles`). The processor compares pages
after it has formed an address; that this comes to the same is `Registers.cost_execute`.
-/

namespace Nmos6502

namespace Instruction

/-- The instructions that wait for a carry into the high byte of an address. -/
def waiting : List Instruction :=
  [adc, and, cmp, eor, lda, ldx, ldy, ora, sbc]

/-- Whether the flags satisfy the condition of a branch. -/
def condition (f : Flags) : Instruction → Bool
  | bcc => !f.carry
  | bcs => f.carry
  | bne => !f.zero
  | beq => f.zero
  | bpl => !f.negative
  | bmi => f.negative
  | bvc => !f.overflow
  | bvs => f.overflow
  | _ => false

theorem isTaken_eq_condition (i : Instruction) (f : Flags) : i.isTaken f = i.condition f := by
  cases i <;> rfl

theorem hasPagePenalty_iff {i : Instruction} : i.hasPagePenalty = true ↔ i ∈ waiting := by
  cases i <;> decide

/-- The instructions that put a byte in the place of their operand. -/
def storing : List Instruction :=
  [sta, stx, sty, inc, dec, asl, lsr, rol, ror]

theorem of_mem_storing {i : Instruction} (h : i ∈ storing) :
    i ∉ waiting ∧ ∀ f, i.condition f = false := by
  have hall : ∀ i ∈ storing, i ∉ waiting ∧ ∀ f, i.condition f = false := by
    simp [storing, waiting, condition]
  exact hall i h

theorem not_isBranch_of_mem_waiting {i : Instruction} (h : i ∈ waiting) : i.isBranch = false := by
  have hall : ∀ i ∈ waiting, i.isBranch = false := by decide
  exact hall i h

theorem effect_of_isBranch {i : Instruction} (h : i.isBranch = true) :
    ∃ taken, i.effect = .branch taken := by
  cases i <;> first | exact ⟨_, rfl⟩ | cases h

end Instruction

namespace Registers

variable {r : Registers} {op : Opcode}

/-- The cycle that an instruction waits for a carry into the high byte of the address of its
operand. -/
def carryCycles (r : Registers) (op : Opcode) (w : Approach) : Nat :=
  match Approach.index? r op.mode with
  | some index =>
    if op.instruction ∈ Instruction.waiting ∧
      256 ≤ (lowByte (w.base op.mode)).toNat + index.toNat then 1 else 0
  | none => 0

/-- The cycles that a branch takes more if its condition is satisfied: one, or two if its target
lies on another page than the next instruction. -/
def takenCycles (r : Registers) (op : Opcode) (w : Approach) : Nat :=
  if op.instruction.condition r.flags then
    if highByte (branchTarget r.pc w.low) = highByte (r.pc + 2) then 1 else 2
  else 0

/-- The processor pays for another page exactly when the index carries. -/
theorem pageCost_location (h : op ∈ Opcode.table) (w : Approach) :
    pageCost op.instruction (w.location r op.mode) = r.carryCycles op w := by
  have hmode : op.instruction ∈ Instruction.waiting → op.mode ≠ .relative := by
    intro hw hrelative
    have hbranch := (Instruction.isBranch_iff_of_mem_table h).mpr hrelative
    rw [Instruction.not_isBranch_of_mem_waiting hw] at hbranch
    cases hbranch
  unfold pageCost carryCycles Approach.location Approach.crosses
  by_cases hw : op.instruction ∈ Instruction.waiting
  · rw [Instruction.hasPagePenalty_iff.mpr hw, if_neg (hmode hw)]
    cases Approach.index? r op.mode with
    | none => rfl
    | some index => simp [hw]
  · have hp : op.instruction.hasPagePenalty = false := by
      rw [← Bool.not_eq_true, Instruction.hasPagePenalty_iff]
      exact hw
    rw [hp]
    cases Approach.index? r op.mode with
    | none => rfl
    | some index => simp [hw]

theorem run_perform_branch {taken : Flags → Bool} {l : Location} {target : UInt16}
    (hl : l.address? = some target) (bus : Bus) : ((r.perform (.branch taken) l).run bus).value =
      if taken r.flags then ({ r with pc := target }, branchCost l) else (r, 0) := by
  unfold perform
  rw [hl]
  rfl

theorem branchCost_location (r : Registers) (w : Approach) :
    branchCost (w.location r .relative) =
      if highByte (branchTarget r.pc w.low) = highByte (r.pc + 2) then 1 else 2 := by
  unfold branchCost Approach.location Approach.crosses
  rw [if_pos rfl]
  by_cases h : highByte (branchTarget r.pc w.low) = highByte (r.pc + 2)
  · simp [h]
  · simp [h, Ne.symm h]

/-- The processor pays for a branch exactly when it is taken. -/
theorem extra_performed (h : op ∈ Opcode.table) (bus : Bus) :
    (r.performed op bus).value.2 = r.takenCycles op (r.approach op.mode bus) := by
  unfold takenCycles
  rw [← Instruction.isTaken_eq_condition]
  cases hb : op.instruction.isBranch with
  | false =>
    have hextra := (yields_perform { r with pc := r.pc + UInt16.ofNat op.size }
      op.instruction.effect ((r.approach op.mode bus).location r op.mode)).value
        (bus.after (BusAct.reads (r.wayTo op.mode bus)))
    rw [Instruction.maxExtra_effect, hb] at hextra
    rw [Instruction.isTaken_of_not_isBranch hb]
    exact Nat.le_zero.mp hextra
  | true =>
    obtain ⟨taken, heffect⟩ := Instruction.effect_of_isBranch hb
    have hmode := (Instruction.isBranch_iff_of_mem_table h).mp hb
    have hcost := branchCost_location r (r.approach op.mode bus)
    rw [← hmode] at hcost
    have haddress : ((r.approach op.mode bus).location r op.mode).address? =
        some (branchTarget r.pc (r.approach op.mode bus).low) := by
      rw [hmode]
      rfl
    unfold performed Instruction.isTaken
    rw [heffect, run_perform_branch haddress, hcost]
    exact apply_ite Prod.snd _ _ _

/-- **The cost of an instruction.** -/
theorem cost_execute (h : op ∈ Opcode.table) (bus : Bus) : ((r.execute op).run bus).value.2 =
    op.cycles + r.carryCycles op (r.approach op.mode bus) +
      r.takenCycles op (r.approach op.mode bus) := by
  rw [(r.run_execute op bus).1, pageCost_location h, extra_performed h]

/-- An instruction that neither waits for a carry nor branches costs what the table says. -/
theorem cycles_of_not_mem (hw : op.instruction ∉ Instruction.waiting)
    (hc : op.instruction.condition r.flags = false) (w : Approach) :
    op.cycles + r.carryCycles op w + r.takenCycles op w = op.cycles := by
  have hcarry : r.carryCycles op w = 0 := by
    unfold carryCycles
    cases Approach.index? r op.mode with
    | none => rfl
    | some index => exact if_neg fun h => hw h.1
  have htaken : r.takenCycles op w = 0 := by
    unfold takenCycles
    rw [hc]
    rfl
  rw [hcarry, htaken]
  rfl

end Registers

end Nmos6502
