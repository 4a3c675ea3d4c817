import Nmos6502.Processor.Execution

/-!
# What an instruction costs

A predicate holds of every value that an activity can yield, whatever is on the bus, if it does so for
every byte that a read may find (`Activity.Yields`). In this sense every instruction costs from two
to seven cycles (`Registers.yields_instruction`): only a taken branch adds more than one cycle, and
branches are cheap; an instruction that pays for another page takes at most six without that.
-/

namespace Nmos6502

namespace Activity

variable {α β : Type}

/-- All values that an activity can yield satisfy a predicate, whatever the reads find. -/
def Yields (P : α → Prop) : Activity α → Prop
  | done value => P value
  | read _ next => ∀ value, (next value).Yields P
  | write _ _ next => next.Yields P
  | note _ next => next.Yields P

theorem Yields.value {P : α → Prop} {activity : Activity α} (h : activity.Yields P) (bus : Bus) :
    P (activity.run bus).value := by
  induction activity generalizing bus with
  | done value => exact h
  | read address next ih => exact ih _ (h _) _
  | write address value next ih => exact ih h _
  | note event next ih => exact ih h _

theorem yields_true (activity : Activity α) : activity.Yields fun _ => True := by
  induction activity with
  | done value => trivial
  | read address next ih => exact fun value => ih value
  | write address value next ih => exact ih
  | note event next ih => exact ih

theorem Yields.imp {P Q : α → Prop} {activity : Activity α} (h : activity.Yields P)
    (hpq : ∀ value, P value → Q value) : activity.Yields Q := by
  induction activity with
  | done value => exact hpq value h
  | read address next ih => exact fun value => ih value (h value)
  | write address value next ih => exact ih h
  | note event next ih => exact ih h

theorem Yields.bind {P : α → Prop} {Q : β → Prop} {activity : Activity α} {f : α → Activity β}
    (h : activity.Yields P) (hf : ∀ value, P value → (f value).Yields Q) :
    (activity >>= f).Yields Q := by
  change (activity.bind f).Yields Q
  induction activity with
  | done value => exact hf value h
  | read address next ih => exact fun value => ih value (h value)
  | write address value next ih => exact ih h
  | note event next ih => exact ih h

/-- What the second of two activities can yield, whatever the first one yields. -/
theorem yields_bind {Q : β → Prop} (activity : Activity α) {f : α → Activity β}
    (hf : ∀ value, (f value).Yields Q) : (activity >>= f).Yields Q :=
  activity.yields_true.bind fun value _ => hf value

end Activity

/-- The most that an effect adds to the cost of its instruction. -/
def Effect.maxExtra : Effect → Nat
  | branch _ => 2
  | _ => 0

theorem Instruction.maxExtra_effect (i : Instruction) :
    i.effect.maxExtra = if i.isBranch then 2 else 0 := by
  cases i <;> rfl

/-- The cycles in the table leave room for what may be added to them. -/
theorem Opcode.cycles_of_mem_table {op : Opcode} (h : op ∈ table) :
    2 ≤ op.cycles ∧ op.cycles ≤ 7 ∧
      (op.instruction.hasPagePenalty = true → op.cycles ≤ 6) ∧
      (op.instruction.isBranch = true →
        op.cycles ≤ 4 ∧ op.instruction.hasPagePenalty = false) := by
  have hall : ∀ op ∈ table, 2 ≤ op.cycles ∧ op.cycles ≤ 7 ∧
      (op.instruction.hasPagePenalty = true → op.cycles ≤ 6) ∧
      (op.instruction.isBranch = true →
        op.cycles ≤ 4 ∧ op.instruction.hasPagePenalty = false) := by decide +kernel
  exact hall op h

namespace Registers

theorem yields_perform (r : Registers) (effect : Effect) (l : Location) :
    (r.perform effect l).Yields fun p => p.2 ≤ effect.maxExtra := by
  have hbranch : branchCost l ≤ 2 := by
    unfold branchCost
    split <;> omega
  cases effect with
  | branch taken =>
    unfold perform
    dsimp only
    split
    · split
      · exact hbranch
      · exact Nat.zero_le _
    · exact Nat.zero_le _
  | internal result => exact Nat.zero_le _
  | jump =>
    unfold perform
    dsimp only
    split <;> exact Nat.zero_le _
  | call =>
    unfold perform
    dsimp only
    split
    · exact Activity.yields_bind _ fun _ => Nat.zero_le _
    · exact Nat.zero_le _
  | modify result =>
    exact Activity.yields_bind _ fun _ => Activity.yields_bind _ fun _ => Nat.zero_le _
  | softwareBreak =>
    exact Activity.yields_bind _ fun _ => Activity.yields_bind _ fun _ => Nat.zero_le _
  | returnFromInterrupt =>
    exact Activity.yields_bind _ fun _ => Activity.yields_bind _ fun _ => Nat.zero_le _
  | _ => exact Activity.yields_bind _ fun _ => Nat.zero_le _

theorem yields_execute (r : Registers) {op : Opcode} (h : op ∈ Opcode.table) :
    (r.execute op).Yields fun p => 2 ≤ p.2 ∧ p.2 ≤ 7 := by
  obtain ⟨hmin, hmax, hpage, hbranch⟩ := Opcode.cycles_of_mem_table h
  have hextra := op.instruction.maxExtra_effect
  refine Activity.yields_bind _ fun _ => Activity.yields_bind _ fun l => ?_
  refine (yields_perform _ op.instruction.effect l).bind fun ⟨r', extra⟩ he => ?_
  have hcost : pageCost op.instruction l ≤ if op.instruction.hasPagePenalty then 1 else 0 := by
    unfold pageCost
    cases op.instruction.hasPagePenalty <;> cases l.crossed <;> decide
  change extra ≤ _ at he
  change 2 ≤ op.cycles + pageCost op.instruction l + extra ∧
    op.cycles + pageCost op.instruction l + extra ≤ 7
  rw [hextra] at he
  split at he
  · next hb =>
    obtain ⟨hcycles, hnone⟩ := hbranch hb
    rw [hnone, if_neg Bool.false_ne_true] at hcost
    omega
  · split at hcost
    · next hp =>
      have := hpage hp
      omega
    · omega

/-- **An instruction costs** from two to seven cycles. -/
theorem yields_instruction (r : Registers) :
    r.instruction.Yields fun result => ∀ r' cost, result = .ok (r', cost) → 2 ≤ cost ∧ cost ≤ 7 := by
  refine Activity.yields_bind _ fun code => ?_
  split
  · refine Activity.yields_bind _ fun _ => ?_
    intro r' cost hr
    cases hr
  · next op hop =>
    refine (yields_execute r (Opcode.mem_table_of_decode? hop)).bind fun p hp => ?_
    intro r' cost hr
    cases hr
    exact hp

end Registers

end Nmos6502
